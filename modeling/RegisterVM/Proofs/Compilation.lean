import RegisterVM.Lifecycle
import RegisterVM.Proofs.Lowering
import RegisterVM.Proofs.SegmentFinder

/-!
# What the finder finds is compiled

The classifier, the finder and the code generator each have their own rules for every opcode. They
agree: a range the finder returns is sound, and a sound range in which every opcode has a compiled form is
planned and lowered (`exists_lower`). It does not begin inside a case table, so a backend that takes what can
be made of such a range (`Backend.TakesFunctions`) takes it. A classifier that only takes opcodes away from the
standard one allows no opcode without a compiled form, so nothing is abandoned.
-/

namespace RegisterVM

/-- The standard classifier with some opcodes taken away. -/
def Classifier.without (disabled : List Opcode) : Classifier :=
  disabled.foldl (fun k op => k.withOverride op false) .standard

/-- What is allowed by a classifier without some opcodes can be compiled. -/
theorem Classifier.isCompilable_of_without {disabled : List Opcode} {op : Opcode}
    (h : (without disabled).allows op = true) : op.isCompilable = true := by
  have hfold : ∀ (ops : List Opcode) (k : Classifier),
      (∀ op, k.allows op = true → op.isCompilable = true) → ∀ op,
        (ops.foldl (fun k op => k.withOverride op false) k).allows op = true →
          op.isCompilable = true := by
    intro ops
    induction ops with
    | nil => exact fun k hk => hk
    | cons d ds ih =>
      refine fun k hk => ih _ fun op hop => ?_
      unfold withOverride at hop
      dsimp only at hop
      split at hop
      · cases hop
      · exact hk op hop
  exact hfold disabled .standard (fun _ h => h) op h

namespace SoundRange

variable {k : Classifier} {r : Routine} {range : IndexRange}

/-- In a sound range all opcodes are allowed but those of case entries. -/
theorem allows (h : SoundRange k r.code r.types range) {i : Nat} {ins : Instruction} (hi : i ∈ range)
    (hins : r.code[i]? = some ins) (hcase : ins.opcode ≠ .caseEntry) : k.allows ins.opcode = true := by
  have heligible := h.eligible i hi ins hins hcase
  rw [Classifier.isEligible, Bool.and_eq_true] at heligible
  exact heligible.1

/-- A sound range does not begin inside a case table: the switch would come before it. -/
theorem beginsInCases_eq_false (h : SoundRange k r.code r.types range) :
    Native.beginsInCases r.code range = false := by
  rw [← Bool.not_eq_true]
  intro hbegin
  obtain ⟨ins, hins, hop⟩ := (Option.any_eq_true _ _).1 hbegin
  obtain ⟨i, hi, sw, hsw, -, hlt, -⟩ :=
    h.owned range.first ⟨le_rfl, h.nonempty⟩ ⟨ins, hins, of_decide_eq_true hop⟩
  exact absurd hi.1 (by omega)

end SoundRange

namespace Native

/-- **Sound ranges of compilable opcodes are planned and lowered.** -/
theorem exists_lower {k : Classifier} {r : Routine} {range : IndexRange}
    (hregs : r.types.size ≤ UInt16.size) (hsound : SoundRange k r.code r.types range)
    (hops : ∀ i ∈ range, ∀ ins, r.code[i]? = some ins → ins.opcode.isCompilable = true)
    (config : Config) : ∃ plan code,
      Plan.build r.code r.types (.ofCode r.code r.types.size) range config = .ok plan ∧ plan.lower r = .ok code := by
  obtain ⟨plan, hbuild⟩ := Plan.exists_build hsound hops config
  obtain ⟨hrange, hplan⟩ := Plan.isPlan_of_build hbuild
  obtain ⟨code, hlower⟩ := Plan.exists_lower hregs hplan (hrange ▸ hsound)
  exact ⟨plan, code, hbuild, hlower⟩

/-- Lowered code stands for the range it was planned for. -/
theorem Plan.range_of_lower {r : Routine} {plan : Plan} {code : Code} (h : plan.lower r = .ok code) :
    code.range = plan.range := by
  unfold Plan.lower at h
  split at h
  · cases h
  · obtain ⟨_, -, ⟨⟩⟩ := exists_of_except_bind_eq_ok h
    rfl

namespace Backend

/-- The backend rejects no function: it takes the code of every range once, unless the range begins inside a case
table, where a variable can be without a value. -/
structure TakesFunctions (b : Backend) : Prop where
  opens : b.opens = true
  declare : ∀ asked range, b.accepts asked (.declare range) = true
  define : ∀ asked r code, beginsInCases r.code code.range = false →
    (∀ q ∈ asked, Request.defines code.range q = false) → b.accepts asked (.define r code) = true
  finishes : ∀ asked, b.finishes asked = true

/-- The verifying backend takes functions. -/
theorem takesFunctions_verifying : verifying.TakesFunctions where
  opens := rfl
  declare _ _ := rfl
  define asked r code hbegins hnew := by
    have hany : asked.any (·.defines code.range) = false := List.any_eq_false.2 fun q hq => by rw [hnew q hq]; decide
    unfold verifying
    dsimp only
    rw [hbegins, hany]
    rfl
  finishes _ := rfl

variable {b : Backend} {r : Routine} {facts : Dataflow} {config : Config} {range : IndexRange} {plan : Plan}
  {code : Code}
  {asked : List Request}

/-- A range that compiles was planned and lowered. -/
theorem exists_lower_of_compileRange {asked' : List Request}
    (h : b.compileRange r facts config range asked = .ok code asked') :
    ∃ plan, Plan.build r.code r.types facts range config = .ok plan ∧ plan.lower r = .ok code := by
  unfold compileRange at h
  cases hbuild : Plan.build r.code r.types facts range config with
  | error e =>
    rw [hbuild] at h
    cases h
  | ok plan =>
    rw [hbuild] at h
    obtain ⟨_, _, -, h⟩ := exists_of_bind_eq_ok (m := b.ask (.declare range)) h
    cases hlower : plan.lower r with
    | error e =>
      rw [hlower] at h
      cases h
    | ok code' =>
      rw [hlower] at h
      obtain ⟨_, _, -, ⟨⟩⟩ := exists_of_bind_eq_ok (m := b.ask (.define r code')) h
      exact ⟨plan, rfl, hlower⟩

/-- A range that is planned and lowered compiles if the backend takes it. -/
theorem compileRange_of_accepts (hbuild : Plan.build r.code r.types facts range config = .ok plan)
    (hlower : plan.lower r = .ok code) (hdeclare : b.accepts asked (.declare range) = true)
    (hdefine : b.accepts (.declare range :: asked) (.define r code) = true) :
    b.compileRange r facts config range asked = .ok code (.define r code :: .declare range :: asked) := by
  unfold compileRange
  rw [hbuild]
  refine (bind_of_ok (m := b.ask (.declare range)) (if_pos hdeclare)).trans ?_
  rw [hlower]
  exact bind_of_ok (m := b.ask (.define r code)) (if_pos hdefine)

end Backend

end Native

namespace Compiler

variable {c : Compiler} {r : Routine}

/-- What is planned, lowered and asked for the first time compiles. -/
theorem compileAll_of_takesFunctions (hbackend : c.backend.TakesFunctions)
    {ranges : List IndexRange} (hnodup : ranges.Nodup)
    (h : ∀ range ∈ ranges, Native.beginsInCases r.code range = false ∧ ∃ plan code,
      Native.Plan.build r.code r.types (.ofCode r.code r.types.size) range c.config = .ok plan ∧
        plan.lower r = .ok code)
    {asked : List Native.Request} (hnew : ∀ q ∈ asked, ∀ range ∈ ranges, q.defines range = false) :
    let emission := c.compileAll r (.ofCode r.code r.types.size) ranges asked
    emission.compiled.map (·.1) = ranges ∧ emission.abandoned = [] := by
  induction ranges generalizing asked with
  | nil => exact ⟨rfl, rfl⟩
  | cons range ranges ih =>
    have ⟨hrange, hrest⟩ := List.nodup_cons.1 hnodup
    obtain ⟨⟨hbegins, plan, code, hbuild, hlower⟩, hranges⟩ := List.forall_mem_cons.1 h
    obtain rfl : code.range = range :=
      (Native.Plan.range_of_lower hlower).trans (Native.Plan.isPlan_of_build hbuild).1
    have hfirst : ∀ q ∈ Native.Request.declare code.range :: asked, q.defines code.range = false :=
      List.forall_mem_cons.2 ⟨rfl, fun q hq => hnew q hq _ List.mem_cons_self⟩
    have hcompile := Native.Backend.compileRange_of_accepts hbuild hlower (hbackend.declare asked code.range)
      (hbackend.define _ r code hbegins hfirst)
    have hlater : ∀ q ∈ Native.Request.define r code :: .declare code.range :: asked,
        ∀ other ∈ ranges, q.defines other = false := by
      refine List.forall_mem_cons.2 ⟨fun other hother => ?_, List.forall_mem_cons.2 ⟨fun _ _ => rfl, ?_⟩⟩
      · exact decide_eq_false fun heq => hrange (heq ▸ hother)
      · exact fun q hq other hother => hnew q hq other (List.mem_cons_of_mem _ hother)
    obtain ⟨hcompiled, habandoned⟩ := ih hrest hranges hlater
    unfold compileAll
    rw [hcompile]
    exact ⟨congrArg (code.range :: ·) hcompiled, habandoned⟩

/-- The emission of a routine is what its ranges come to one after another. -/
theorem generate_eq_ok {ranges : List IndexRange} {emission : Emission} (h : c.generate r ranges = .ok emission) :
    emission = c.compileAll r (.ofCode r.code r.types.size) ranges [] := by
  unfold generate at h
  dsimp only at h
  split at h
  · split at h
    · cases h
      rfl
    · cases h
  · cases h

/-- A backend that takes functions does not refuse a module. -/
theorem generate_of_takesFunctions (hbackend : c.backend.TakesFunctions) (ranges : List IndexRange) :
    c.generate r ranges = .ok (c.compileAll r (.ofCode r.code r.types.size) ranges []) := by
  unfold generate
  dsimp only
  rw [if_pos hbackend.opens, hbackend.finishes, Bool.or_true]
  rfl

end Compiler

namespace Published

/-- What compiling a routine of fitting length comes to, without the special cases: having found or compiled nothing
is having installed nothing. -/
theorem compile_fresh {r : Routine} (hcode : r.code.size ≤ maxCompiledLength) (c : Compiler) :
    let segments := c.finder.find r.code r.types
    let emission := c.compileAll r (.ofCode r.code r.types.size) segments []
    (∃ e, c.generate r segments = .error e ∧
      (fresh r).compile c = (.error (.codegen e), ⟨r, .interpreted r, .interpreted⟩)) ∨
    (fresh r).compile c = (.ok ⟨segments, emission.compiled.map (·.1), emission.abandoned⟩,
      ⟨r, emission.compiled.foldl (fun m (range, code) => m.install range code) (.interpreted r),
        if emission.compiled = [] then .interpreted else .installed⟩) := by
  intro segments emission
  unfold compile fresh
  dsimp only
  rw [if_neg (not_not_intro rfl), if_neg (Nat.not_lt.2 hcode)]
  by_cases hnone : segments = []
  · have hemission : emission = ⟨[], [], []⟩ :=
      congrArg (fun segments => c.compileAll r (.ofCode r.code r.types.size) segments []) hnone
    rw [if_pos (List.isEmpty_iff.2 hnone), hemission, hnone]
    exact .inr rfl
  · rw [if_neg (mt List.isEmpty_iff.1 hnone)]
    cases hgenerate : c.generate r segments with
    | error e => exact .inl ⟨e, rfl, rfl⟩
    | ok generated =>
      obtain rfl : generated = emission := Compiler.generate_eq_ok hgenerate
      right
      dsimp only
      by_cases hfailed : emission.compiled = []
      · rw [if_pos (List.isEmpty_iff.2 hfailed), if_pos hfailed, hfailed]
        rfl
      · rw [if_neg (mt List.isEmpty_iff.1 hfailed), if_neg hfailed]

/-- **Nothing found is abandoned.** Whatever the settings and whichever opcodes are taken away, every range the
finder returns is planned and lowered; and the report lists all of them as installed, unless the backend rejects
a function. -/
theorem compile_fresh_installs_all (r : Routine) (hcode : r.code.size ≤ 65536)
    (hregs : r.types.size ≤ 65536) (config : Native.Config) (disabled : List Opcode) (backend : Native.Backend) :
    let c : Compiler := ⟨config, .without disabled, backend⟩
    let segments := c.finder.find r.code r.types
    (∀ range ∈ segments, ∃ plan code,
      Native.Plan.build r.code r.types (.ofCode r.code r.types.size) range config = .ok plan ∧
        plan.lower r = .ok code) ∧
    (backend.TakesFunctions → ((Published.fresh r).compile c).1 = .ok ⟨segments, segments, []⟩) := by
  intro c segments
  have hsound : ∀ range ∈ segments, SoundRange c.classifier r.code r.types range := fun range hrange =>
    SegmentFinder.soundRange_of_mem_find r hregs hrange
  have hlowered : ∀ range ∈ segments, ∃ plan code,
      Native.Plan.build r.code r.types (.ofCode r.code r.types.size) range config = .ok plan ∧
        plan.lower r = .ok code := by
    intro range hrange
    refine Native.exists_lower hregs (hsound range hrange) (fun i hi ins hins => ?_) config
    by_cases hcase : ins.opcode = .caseEntry
    · rw [hcase]
      rfl
    · exact Classifier.isCompilable_of_without ((hsound range hrange).allows hi hins hcase)
  refine ⟨hlowered, fun hbackend => ?_⟩
  obtain ⟨hall, hnone⟩ := Compiler.compileAll_of_takesFunctions (c := c) hbackend
    (SegmentFinder.separated_find r c.finder).nodup (fun range hrange =>
      ⟨(hsound range hrange).beginsInCases_eq_false, hlowered range hrange⟩)
    (fun q hq => absurd hq List.not_mem_nil)
  have hgenerate := Compiler.generate_of_takesFunctions (c := c) (r := r) hbackend segments
  rcases compile_fresh hcode c with ⟨e, he, -⟩ | hcompile
  · rw [hgenerate] at he
    cases he
  · rw [hcompile]
    dsimp only
    rw [hall, hnone]

/-- The whole of a small switch is found, planned and lowered, and the backend at hand takes it. -/
theorem compile_twoWay_installs_all :
    Routine.twoWay.code.size ≤ 65536 ∧ Routine.twoWay.types.size ≤ 65536 ∧
      (∃ plan code, Native.Plan.build Routine.twoWay.code Routine.twoWay.types
        (.ofCode Routine.twoWay.code Routine.twoWay.types.size) ⟨0, 3⟩ {} = .ok plan ∧
          plan.lower Routine.twoWay = .ok code) ∧
      ∃ segments, ⟨0, 3⟩ ∈ segments ∧
        ((Published.fresh Routine.twoWay).compile ⟨{}, .without [], .verifying⟩).1 = .ok ⟨segments, segments, []⟩ := by
  obtain ⟨hlowered, hinstalled⟩ := compile_fresh_installs_all Routine.twoWay (by decide) (by decide) {} [] .verifying
  have hfound : ⟨0, 3⟩ ∈ (⟨{}, .without [], .verifying⟩ : Compiler).finder.find Routine.twoWay.code
      Routine.twoWay.types :=
    SegmentFinder.mem_find_iff.2
      ⟨(Routine.twoWay.mem_settle_iff .standard (by decide)).2 Routine.twoWay_maximalSound, by decide, by decide⟩
  exact ⟨by decide, by decide, hlowered _ hfound, _, hfound,
    hinstalled Native.Backend.takesFunctions_verifying⟩

end Published

end RegisterVM
