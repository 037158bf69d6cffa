import RegisterVM.Proofs.Installation
import RegisterVM.Session

/-!
# The lifetime of a routine

A routine can be compiled, run with or without a compiler at hand, and stripped of its compiled code, in
any order and any number of times. Two things stay in order throughout (`Published.Coherent`): the stage
says whether there is compiled code, and the image is the code of the routine with a marker at the start
of every entry of its table (`Image.Marked`), from which the code can be recovered (`Image.restored`).

A routine that has not been analyzed is as good as new (`Published.Coherent.eq_fresh`), so there is one
compilation to look at. It installs separated ranges one behind another (`Image.Marked.install`), and
every range it found is either installed or reported (`Compiler.compileAll_partition`), unless the backend
fails as a whole and nothing is installed (`Published.compile_fresh_of_codegen`). Afterwards the stage never
goes back (`Stage.Precedes`), which is why no second compilation can succeed.
-/

namespace RegisterVM

/-! ### Images with markers -/

/-- The code of an image with the recorded instructions put back. -/
def Image.restored (m : Image) : Array Instruction :=
  m.segments.foldl (fun code x => code.setIfInBounds x.start x.replaced) m.code

/-- **An image is the code of a routine with markers**: the marker of table entry `k` has the number `k`
and the length of the entry, the entry has what the marker replaced, and entries follow each other in the
code without sharing an index. -/
structure Image.Marked (r : Routine) (m : Image) : Prop where
  size : m.code.size = r.code.size
  replaced : ∀ {k : Nat} {x : CompiledSegment}, m.segments[k]? = some x → r.code[x.start]? = some x.replaced
  marker : ∀ {k : Nat} {x : CompiledSegment}, m.segments[k]? = some x → ∃ a b : Int32,
    m.code[x.start]? = some ⟨.callSegment, a, b, 0, x.replaced.line⟩ ∧ a.toInt = k ∧ b.toInt = x.length
  plain : ∀ i, (∀ x ∈ m.segments, x.start ≠ i) → m.code[i]? = r.code[i]?
  inside : ∀ x ∈ m.segments, 0 < x.length ∧ x.start + x.length ≤ r.code.size
  ascending : m.segments.toList.Pairwise fun x y => x.start + x.length ≤ y.start

namespace Image

variable {r : Routine} {m : Image}

/-- The image of an interpreted routine is its code without markers. -/
theorem marked_interpreted (r : Routine) : (interpreted r).Marked r where
  size := rfl
  replaced h := by cases h
  marker h := by cases h
  plain _ _ := rfl
  inside _ h := absurd h (Array.not_mem_empty _)
  ascending := .nil

/-- An image without segments is the one that is interpreted. -/
theorem Marked.eq_interpreted (h : m.Marked r) (hnone : m.segments = #[]) : m = interpreted r := by
  have hcode : m.code = r.code := by
    refine Array.ext_getElem? fun i => h.plain i fun x hx => ?_
    rw [hnone] at hx
    exact absurd hx (Array.not_mem_empty x)
  cases m
  cases hnone
  cases hcode
  rfl

/-- An index gets its instruction back, unless it already has it. -/
theorem getElem?_foldl_replaced {xs : List CompiledSegment} {code : Array Instruction} (hsize : code.size = r.code.size)
    (hxs : ∀ x ∈ xs, r.code[x.start]? = some x.replaced) {i : Nat}
    (hi : code[i]? = r.code[i]? ∨ ∃ x ∈ xs, x.start = i) :
    (xs.foldl (fun code x => code.setIfInBounds x.start x.replaced) code)[i]? = r.code[i]? := by
  induction xs generalizing code with
  | nil =>
    rcases hi with hi | ⟨x, hx, -⟩
    · exact hi
    · exact absurd hx List.not_mem_nil
  | cons x xs ih =>
    rw [List.foldl_cons]
    refine ih (Array.size_setIfInBounds.trans hsize) (fun y hy => hxs y (List.mem_cons_of_mem x hy)) ?_
    have hx := hxs x List.mem_cons_self
    rw [Array.getElem?_setIfInBounds]
    by_cases hstart : x.start = i
    · subst hstart
      left
      rw [if_pos rfl, hx, if_pos (hsize ▸ (Array.getElem?_eq_some_iff.1 hx).1)]
    · rw [if_neg hstart]
      refine hi.imp_right ?_
      rintro ⟨y, hy, rfl⟩
      rcases List.mem_cons.1 hy with rfl | hy
      · exact absurd rfl hstart
      · exact ⟨y, hy, rfl⟩

/-- **Putting the recorded instructions back gives the code.** -/
theorem Marked.restored_eq (h : m.Marked r) : m.restored = r.code := by
  have hreplaced (x : CompiledSegment) (hx : x ∈ m.segments.toList) : r.code[x.start]? = some x.replaced := by
    obtain ⟨k, hk⟩ := List.mem_iff_getElem?.1 hx
    exact h.replaced (Array.getElem?_toList ▸ hk)
  unfold restored
  rw [← Array.foldl_toList]
  refine Array.ext_getElem? fun i => getElem?_foldl_replaced h.size hreplaced ?_
  by_cases hi : ∃ x ∈ m.segments.toList, x.start = i
  · exact .inr hi
  · left
    refine h.plain i fun x hx hstart => hi ⟨x, Array.mem_toList_iff.2 hx, hstart⟩

/-- **One more range is marked**, behind all the others. -/
theorem Marked.install (h : m.Marked r) {range : IndexRange} (hrange : range.first ≤ range.last)
    (hlast : range.last < r.code.size) (hshort : r.code.size ≤ maxCompiledLength)
    (hcount : m.segments.size < r.code.size) (hbehind : ∀ x ∈ m.segments, x.start + x.length ≤ range.first)
    (code : Native.Code) :
    (m.install range code).Marked r ∧ ∃ ins,
      (m.install range code).segments = m.segments.push ⟨range.first, range.length, code, ins⟩ := by
  have hshort : r.code.size ≤ 65536 := hshort
  have hlength : range.first + range.length = range.last + 1 := by
    unfold IndexRange.length
    omega
  -- no marker stands at the start of the range yet
  have hfree (x : CompiledSegment) (hx : x ∈ m.segments) : x.start ≠ range.first := by
    have hpos := (h.inside x hx).1
    have hend := hbehind x hx
    omega
  have hfirst : range.first < r.code.size := by omega
  have hins : m.code[range.first]? = some r.code[range.first] := by
    rw [h.plain range.first hfree, Array.getElem?_eq_getElem hfirst]
  have hnumber : (Int32.ofNat m.segments.size).toInt = m.segments.size := Int32.toInt_ofNat_of_lt (by omega)
  have hwidth : (Int32.ofNat range.length).toInt = range.length := Int32.toInt_ofNat_of_lt (by omega)
  have hbound : range.first < m.code.size := h.size ▸ hfirst
  unfold Image.install
  rw [hins]
  refine ⟨⟨?_, fun {k x} hx => ?_, fun {k x} hx => ?_, fun i hi => ?_, fun x hx => ?_, ?_⟩, _, rfl⟩
  · exact Array.size_setIfInBounds.trans h.size
  · rw [Array.getElem?_push] at hx
    split at hx
    · cases hx
      exact Array.getElem?_eq_getElem hfirst
    · exact h.replaced hx
  · rw [Array.getElem?_push] at hx
    dsimp only
    rw [Array.getElem?_setIfInBounds]
    split at hx
    · rename_i hk
      cases hx
      refine ⟨Int32.ofNat m.segments.size, Int32.ofNat range.length, ?_, hk ▸ hnumber, hwidth⟩
      rw [if_pos rfl, if_pos hbound]
    · rw [if_neg (hfree x (Array.mem_of_getElem? hx)).symm]
      exact h.marker hx
  · dsimp only at hi ⊢
    have hfirst := hi _ (Array.mem_push_self)
    rw [Array.getElem?_setIfInBounds, if_neg hfirst]
    exact h.plain i fun x hx => hi x (Array.mem_push_of_mem _ hx)
  · rcases Array.mem_push.1 hx with hx | rfl
    · exact h.inside x hx
    · exact ⟨by dsimp only; omega, by dsimp only; omega⟩
  · dsimp only
    rw [Array.toList_push, List.pairwise_append]
    refine ⟨h.ascending, List.pairwise_singleton _ _, fun x hx y hy => ?_⟩
    rw [List.mem_singleton.1 hy]
    exact hbehind x (Array.mem_toList_iff.1 hx)

/-- Where the entries of a table are in the code. -/
def spans (m : Image) : List (Nat × Nat) := m.segments.toList.map fun x => (x.start, x.length)

/-- **Separated ranges are marked one behind another**, and the table lists them. -/
theorem Marked.foldl_install {compiled : List (IndexRange × Native.Code)} (h : m.Marked r)
    (hshort : r.code.size ≤ maxCompiledLength) (hsep : Separated r.code.size (compiled.map (·.1)))
    (hcount : m.segments.size + compiled.length ≤ r.code.size)
    (hbehind : ∀ x ∈ m.segments, ∀ y ∈ compiled, x.start + x.length ≤ y.1.first) :
    (compiled.foldl (fun m (range, code) => m.install range code) m).Marked r ∧
      (compiled.foldl (fun m (range, code) => m.install range code) m).spans =
        m.spans ++ compiled.map fun y => (y.1.first, y.1.length) := by
  induction compiled generalizing m with
  | nil => exact ⟨h, (List.append_nil _).symm⟩
  | cons y rest ih =>
    obtain ⟨range, code⟩ := y
    rw [List.length_cons] at hcount
    have hrange : range.first ≤ range.last := hsep.nonempty range List.mem_cons_self
    have hlast : range.last < r.code.size := hsep.bounded range List.mem_cons_self
    have hascending := List.pairwise_cons.1 hsep.ascending
    obtain ⟨hnext, ins, hsegments⟩ := h.install hrange hlast hshort (by omega)
      (fun x hx => hbehind x hx (range, code) List.mem_cons_self) code
    rw [List.foldl_cons]
    obtain ⟨hmarked, hspans⟩ := ih hnext hsep.tail (by rw [hsegments, Array.size_push]; omega) fun x hx y hy => by
      rw [hsegments] at hx
      rcases Array.mem_push.1 hx with hx | rfl
      · exact hbehind x hx y (List.mem_cons_of_mem _ hy)
      · have hlt : range.last < y.1.first := hascending.1 y.1 (List.mem_map_of_mem hy)
        dsimp only
        unfold IndexRange.length
        omega
    refine ⟨hmarked, hspans.trans ?_⟩
    unfold spans
    rw [hsegments, Array.toList_push, List.map_append, List.append_assoc]
    rfl

end Image

/-! ### What a compilation reports -/

/-- The ranges a report lists as installed and those it lists as abandoned are together the ranges that
were found, each in the order in which they were found. -/
def Report.Partitions (report : Report) : Prop :=
  ∃ installs : IndexRange → Bool, report.installed = report.segments.filter installs ∧
    report.abandoned.map (·.1) = report.segments.filter fun range => !installs range

/-- Every range is compiled or abandoned. -/
theorem Compiler.compileAll_partition (r : Routine) (c : Compiler) (facts : Dataflow) {ranges : List IndexRange}
    (hnodup : ranges.Nodup) (asked : List Native.Request) :
    let emission := c.compileAll r facts ranges asked
    ∃ installs : IndexRange → Bool, emission.compiled.map (·.1) = ranges.filter installs ∧
      emission.abandoned.map (·.1) = ranges.filter fun range => !installs range := by
  induction ranges generalizing asked with
  | nil => exact ⟨fun _ => true, rfl, rfl⟩
  | cons range ranges ih =>
    have ⟨hrange, hrest⟩ := List.nodup_cons.1 hnodup
    -- what becomes of the first range leaves the answers for the others as they are
    have hothers (installs : IndexRange → Bool) (b : Bool) (x : IndexRange) (hx : x ∈ ranges) :
        Function.update installs range b x = installs x :=
      Function.update_of_ne (ne_of_mem_of_not_mem hx hrange) b installs
    have hfilter (installs : IndexRange → Bool) (b : Bool) :
        ranges.filter (Function.update installs range b) = ranges.filter installs :=
      List.filter_congr (hothers installs b)
    have hfilterNot (installs : IndexRange → Bool) (b : Bool) :
        (ranges.filter fun x => !Function.update installs range b x) = ranges.filter fun x => !installs x :=
      List.filter_congr fun x hx => congrArg not (hothers installs b x hx)
    unfold compileAll
    cases hcompile : c.backend.compileRange r facts c.config range asked with
    | ok code asked' =>
      obtain ⟨installs, hcompiled, habandoned⟩ := ih hrest asked'
      refine ⟨Function.update installs range true, ?_, ?_⟩
      · rw [List.filter_cons_of_pos (Function.update_self ..), hfilter]
        exact congrArg (range :: ·) hcompiled
      · rw [List.filter_cons_of_neg (by rw [Function.update_self]; decide), hfilterNot]
        exact habandoned
    | error e asked' =>
      obtain ⟨installs, hcompiled, habandoned⟩ := ih hrest asked'
      refine ⟨Function.update installs range false, ?_, ?_⟩
      · rw [List.filter_cons_of_neg (by rw [Function.update_self]; decide), hfilter]
        exact hcompiled
      · rw [List.filter_cons_of_pos (by rw [Function.update_self]; decide), hfilterNot]
        exact congrArg (range :: ·) habandoned

/-! ### Stages -/

/-- A stage can come after another one, or be the same. -/
def Stage.Precedes : Stage → Stage → Prop
  | unanalyzed, _ => True
  | installed, t => t = installed ∨ t = interpreted
  | interpreted, t => t = interpreted

/-- A stage can stay as it is. -/
theorem Stage.Precedes.refl (s : Stage) : s.Precedes s := by
  cases s with
  | unanalyzed => trivial
  | installed => exact .inl rfl
  | interpreted => exact rfl

namespace Published

/-- **A routine is in order**: its code is what it was, it is installed just if its image has compiled
code, and the image is its code with markers. -/
structure Coherent (r : Routine) (p : Published) : Prop where
  routine : p.routine = r
  installed_iff : p.stage = .installed ↔ p.image.isCompiled = true
  marked : p.image.Marked r
  restored : p.image.restored = r.code

variable {r : Routine} {p : Published}

/-- A routine that is only interpreted is in order, unless it is said to be installed. -/
theorem coherent_interpreted (r : Routine) {stage : Stage} (hstage : stage ≠ .installed) :
    Coherent r ⟨r, .interpreted r, stage⟩ where
  routine := rfl
  installed_iff := iff_of_false hstage Bool.false_ne_true
  marked := Image.marked_interpreted r
  restored := rfl

/-- Where nothing is installed, the image is the plain one. -/
theorem Coherent.image_eq (h : p.Coherent r) (hstage : p.stage ≠ .installed) : p.image = .interpreted r := by
  refine h.marked.eq_interpreted ?_
  have hcompiled := mt h.installed_iff.2 hstage
  unfold Image.isCompiled at hcompiled
  simpa using hcompiled

/-- A routine that has not been analyzed is as good as new. -/
theorem Coherent.eq_fresh (h : p.Coherent r) (hstage : p.stage = .unanalyzed) : p = fresh r := by
  have himage := h.image_eq (by rw [hstage]; decide)
  have hroutine := h.routine
  obtain ⟨routine, image, stage⟩ := p
  dsimp only at hstage himage hroutine
  rw [hstage, himage, hroutine]
  rfl

/-- A routine is not compiled a second time. -/
theorem compile_of_ne_unanalyzed (hstage : p.stage ≠ .unanalyzed) (c : Compiler) :
    p.compile c = (.error (.alreadyAnalyzed p.routine.name), p) := by
  unfold compile
  exact if_pos hstage

/-- A new routine that is too long is given up. -/
theorem compile_fresh_of_long (hlong : maxCompiledLength < r.code.size) (c : Compiler) :
    (fresh r).compile c = (.error (.tooLong r.name r.code.size), ⟨r, .interpreted r, .interpreted⟩) := by
  unfold compile fresh
  dsimp only
  rw [if_neg (not_not_intro rfl), if_pos hlong]

/-- A routine whose image has separated ranges installed, if any, is in order. -/
theorem coherent_installed (hshort : r.code.size ≤ maxCompiledLength) {compiled : List (IndexRange × Native.Code)}
    (hsep : Separated r.code.size (compiled.map (·.1))) :
    let image := compiled.foldl (fun m (range, code) => m.install range code) (.interpreted r)
    Coherent r ⟨r, image, if compiled = [] then .interpreted else .installed⟩ ∧
      image.spans = compiled.map fun y => (y.1.first, y.1.length) := by
  intro image
  have hlength := hsep.length_le
  rw [List.length_map] at hlength
  obtain ⟨hmarked, hspans⟩ := (Image.marked_interpreted r).foldl_install hshort hsep
    (by change 0 + _ ≤ _; omega) fun x hx => absurd hx (Array.not_mem_empty x)
  have hspans : image.spans = compiled.map fun y => (y.1.first, y.1.length) := hspans
  have hcount : image.segments.size = compiled.length := by
    have hlengths := congrArg List.length hspans
    unfold Image.spans at hlengths
    rwa [List.length_map, List.length_map, Array.length_toList] at hlengths
  refine ⟨⟨rfl, ?_, hmarked, hmarked.restored_eq⟩, hspans⟩
  dsimp only
  rw [Image.isCompiled, Bool.not_eq_true', Array.isEmpty_eq_false_iff, ← Array.size_pos_iff, hcount]
  split
  · rename_i hnone
    rw [hnone]
    exact iff_of_false (by decide) (Nat.lt_irrefl 0)
  · rename_i hsome
    exact iff_of_true rfl (List.length_pos_iff.2 hsome)

/-- **The first compilation leaves the routine in order**, whatever the backend refuses, and the table lists what it
reports as installed. -/
theorem coherent_compile_fresh (r : Routine) (c : Compiler) :
    ((fresh r).compile c).2.Coherent r ∧ ∀ report, ((fresh r).compile c).1 = .ok report →
      report.Partitions ∧
        ((fresh r).compile c).2.image.spans = report.installed.map fun range => (range.first, range.length) := by
  rcases Nat.lt_or_ge maxCompiledLength r.code.size with hlong | hshort
  · rw [compile_fresh_of_long hlong]
    exact ⟨coherent_interpreted r (by decide), nofun⟩
  · rcases compile_fresh hshort c with ⟨e, -, hcompile⟩ | hcompile
    · rw [hcompile]
      exact ⟨coherent_interpreted r (by decide), nofun⟩
    · have hfound := SegmentFinder.separated_find r c.finder
      obtain ⟨installs, hinstalled, habandoned⟩ :=
        Compiler.compileAll_partition r c (.ofCode r.code r.types.size) hfound.nodup []
      have hsep := hfound.filter installs
      rw [← hinstalled] at hsep
      obtain ⟨hcoherent, hspans⟩ := coherent_installed hshort hsep
      rw [hcompile]
      refine ⟨hcoherent, fun report hok => ?_⟩
      cases hok
      refine ⟨⟨installs, hinstalled, habandoned⟩, hspans.trans ?_⟩
      rw [List.map_map]
      rfl

/-! ### Lifetimes -/

/-- What can happen to a routine: it is compiled, its compiled code is dropped, or it is run, maybe with a
compiler that is asked before the first run. -/
inductive Event where
  | compile (c : Compiler)
  | discard
  | run (hook : Option Compiler)

/-- A routine after an event. A run executes the image and leaves it as it is. -/
def after (p : Published) : Event → Published
  | .compile c => (p.compile c).2
  | .discard => p.discard
  | .run none => p
  | .run (some c) => p.beforeRun c

/-- A routine after several events. -/
def live (p : Published) (events : List Event) : Published := events.foldl after p

/-- The compiler that an event lets work on a routine, if it does. -/
def compiler? (p : Published) : Event → Option Compiler
  | .compile c => some c
  | .discard => none
  | .run none => none
  | .run (some c) => if c.config.onFirstCall && p.stage = .unanalyzed then some c else none

/-- An event that lets a compiler work does nothing else. -/
theorem after_of_compiler? {e : Event} {c : Compiler} (h : p.compiler? e = some c) : p.after e = (p.compile c).2 := by
  cases e with
  | compile c' =>
    cases h
    rfl
  | discard => cases h
  | run hook =>
    cases hook with
    | none => cases h
    | some c' =>
      obtain ⟨hfirst, ⟨⟩⟩ := Option.ite_none_right_eq_some.1 h
      exact if_pos hfirst

/-- The other events drop the compiled code or change nothing. -/
theorem after_of_compiler?_eq_none {e : Event} (h : p.compiler? e = none) : p.after e = p.discard ∨ p.after e = p := by
  cases e with
  | compile c => cases h
  | discard => exact .inl rfl
  | run hook =>
    cases hook with
    | none => exact .inr rfl
    | some c =>
      refine .inr (if_neg fun hfirst => ?_)
      have hasked : p.compiler? (.run (some c)) = some c := if_pos hfirst
      rw [hasked] at h
      cases h

/-- Running a routine in a session is an event in its life. -/
theorem after_run_of_session {s t : Session} {k budget : Nat} {frame : Frame} {o : Outcome}
    (hp : s.routines[k]? = some p) (hrun : s.run k frame budget = some (o, t)) :
    t.routines[k]? = some (p.after (.run (if s.compilesOnRun then some s.compiler else none))) := by
  unfold Session.run at hrun
  rw [hp] at hrun
  obtain ⟨p', hp', hrun⟩ := Option.bind_eq_some_iff.1 hrun
  cases hp'
  obtain ⟨o', -, heq⟩ := Option.bind_eq_some_iff.1 hrun
  cases heq
  change (s.routines.setIfInBounds k _)[k]? = _
  rw [Array.getElem?_setIfInBounds, if_pos rfl, if_pos (Array.getElem?_eq_some_iff.1 hp).1]
  cases s.compilesOnRun <;> rfl

/-- Discarding compiled code leaves a routine in order. -/
theorem coherent_discard (h : p.Coherent r) : p.discard.Coherent r := by
  have himage : p.discard = ⟨r, .interpreted r, .interpreted⟩ := by
    unfold discard
    dsimp only
    rw [h.routine]
    split
    · rfl
    · rename_i hstage
      rw [h.image_eq hstage]
  rw [himage]
  exact coherent_interpreted r (by decide)

/-- **Every event keeps a routine in order**, and its stage never goes back. -/
theorem Coherent.after (h : p.Coherent r) (e : Event) :
    (p.after e).Coherent r ∧ p.stage.Precedes (p.after e).stage := by
  cases he : p.compiler? e with
  | some c =>
    rw [after_of_compiler? he]
    by_cases hstage : p.stage = .unanalyzed
    · refine ⟨h.eq_fresh hstage ▸ (coherent_compile_fresh r c).1, ?_⟩
      rw [hstage]
      trivial
    · rw [compile_of_ne_unanalyzed hstage]
      exact ⟨h, .refl _⟩
  | none =>
    rcases after_of_compiler?_eq_none he with hdiscard | hsame
    · rw [hdiscard]
      refine ⟨coherent_discard h, ?_⟩
      change p.stage.Precedes .interpreted
      cases p.stage with
      | unanalyzed => trivial
      | installed => exact .inr rfl
      | interpreted => exact rfl
    · rw [hsame]
      exact ⟨h, .refl _⟩

end Published

end RegisterVM
