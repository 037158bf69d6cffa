import RegisterVM.Proofs.Installation
import RegisterVM.Proofs.ScalarAccess
import RegisterVM.Proofs.SegmentStep

/-!
# Compiled routines run like interpreted ones

A machine that executes compiled segments follows the interpreting machine step by step. It makes two
kinds of steps of its own: entering a segment at its marker, and leaving one that control has run through.
Both lower a rank, so they cannot go on forever (`Simulates`). Everything else is matched: outside
segments both machines execute the same instruction on states alike on the live registers, inside a
segment compiled code keeps pace with the interpreter.

So a run that keeps to the declared types ends under compilation if and only if it ends when interpreted,
with the same result and in a state alike outside the register file (`Image.Executes.runsLike`). What may
differ is the second word of a scalar that has only one.
-/

namespace RegisterVM

/-! ### Machines with steps of their own -/

/-- One step of a machine `g`, seen from a machine `f`: both go on, both end, or `g` alone goes on and
gets lower in rank. -/
inductive Matches {σ τ ρ ρ' : Type} (R : σ → τ → Prop) (Q : ρ → ρ' → Prop) (rank : τ → Nat) (s : σ) (t : τ) :
    Transition σ ρ → Transition τ ρ' → Prop
  | next {s' : σ} {t' : τ} (related : R s' t') : Matches R Q rank s t (.next s') (.next t')
  | halt {o : ρ} {o' : ρ'} (related : Q o o') : Matches R Q rank s t (.halt o) (.halt o')
  | own {x : Transition σ ρ} {t' : τ} (related : R s t') (lower : rank t' < rank t) :
    Matches R Q rank s t x (.next t')

/-- From states related by `R` every step matches. -/
def Simulates {σ τ ρ ρ' : Type} (f : σ → Transition σ ρ) (g : τ → Transition τ ρ') (R : σ → τ → Prop)
    (Q : ρ → ρ' → Prop) (rank : τ → Nat) : Prop :=
  ∀ s t, R s t → Matches R Q rank s t (f s) (g t)

namespace Simulates

variable {σ τ ρ ρ' : Type} {f : σ → Transition σ ρ} {g : τ → Transition τ ρ'} {R : σ → τ → Prop}
  {Q : ρ → ρ' → Prop} {rank : τ → Nat}

/-- **If `f` ends, so does `g`.** -/
theorem exists_right (h : Simulates f g R Q rank) {s : σ} {t : τ} (hst : R s t) {n : Nat} {o : ρ}
    (ho : iterate f n s = some o) : ∃ m o', iterate g m t = some o' ∧ Q o o' := by
  induction n generalizing s t with
  | zero => cases ho
  | succ n ih =>
    -- the steps `g` makes on its own come first; they are over when the rank is used up
    induction hrank : rank t using Nat.strong_induction_on generalizing t with
    | _ k ihrank =>
      have hmatch := h s t hst
      cases hg : g t with
      | halt o' =>
        rw [hg] at hmatch
        cases hf : f s with
        | next s' =>
          rw [hf] at hmatch
          cases hmatch
        | halt o₀ =>
          rw [hf] at hmatch
          cases hmatch with
          | halt related =>
            obtain rfl : o₀ = o := by simpa [iterate, hf] using ho
            exact ⟨1, o', by rw [iterate, hg], related⟩
      | next t' =>
        rw [hg] at hmatch
        obtain ⟨m, o', hm, hQ⟩ : ∃ m o', iterate g m t' = some o' ∧ Q o o' := by
          generalize hx : f s = x at hmatch
          cases hmatch with
          | next related =>
            refine ih related ?_
            rwa [iterate, hx] at ho
          | own related lower => exact ihrank (rank t') (hrank ▸ lower) related rfl
        exact ⟨m + 1, o', by rw [iterate, hg]; exact hm, hQ⟩

/-- **If `g` ends, so does `f`.** -/
theorem exists_left (h : Simulates f g R Q rank) {s : σ} {t : τ} (hst : R s t) {m : Nat} {o' : ρ'}
    (ho : iterate g m t = some o') : ∃ n o, iterate f n s = some o ∧ Q o o' := by
  induction m generalizing s t with
  | zero => cases ho
  | succ m ih =>
    have hmatch := h s t hst
    generalize hx : f s = x, hy : g t = y at hmatch
    rw [iterate, hy] at ho
    cases hmatch with
    | next related =>
      obtain ⟨n, o, hn, hQ⟩ := ih related ho
      exact ⟨n + 1, o, by rw [iterate, hx]; exact hn, hQ⟩
    | halt related =>
      cases ho
      exact ⟨1, _, by rw [iterate, hx], related⟩
    | own related lower => exact ih related ho

/-- The results of both machines are related, whatever their budgets. -/
theorem related (h : Simulates f g R Q rank) {s : σ} {t : τ} (hst : R s t) {n m : Nat} {o : ρ} {o' : ρ'}
    (ho : iterate f n s = some o) (ho' : iterate g m t = some o') : Q o o' := by
  obtain ⟨k, o'', hk, hQ⟩ := h.exists_right hst ho
  have heq : some o'' = some o' :=
    (iterate_of_le hk (Nat.le_max_left k m)).symm.trans (iterate_of_le ho' (Nat.le_max_right k m))
  exact Option.some.inj heq ▸ hQ

end Simulates

/-! ### Packed reports -/

namespace ErrorCode

/-- A packed status has the error code above the index, as far as sixteen bits can hold it. -/
theorem toNat_pack (e : ErrorCode) (i : Nat) :
    (e.pack i).toUInt32.toNat = e.code * 65536 + i % 65536 := by
  have hcode : e.code ≤ 4 := by cases e <;> decide
  have hlt : e.code * 65536 + i % 65536 < UInt32.size := by
    have : UInt32.size = 4294967296 := rfl
    omega
  exact UInt32.toNat_ofNat_of_lt hlt

/-- **A report carries the code and the index.** -/
theorem unpack?_pack (e : ErrorCode) {i : Nat} (hi : i < 65536) :
    unpack? (e.pack i) = some (e, i) := by
  have hsize : UInt16.size = 65536 := rfl
  unfold unpack?
  dsimp only
  rw [toNat_pack, hsize, show (e.code * 65536 + i % 65536) / 65536 = e.code by omega,
    show (e.code * 65536 + i % 65536) % 65536 = i by omega, ofCode?_code]
  rfl

/-- The status of an error is not zero. -/
theorem pack_ne_zero (e : ErrorCode) (i : Nat) : e.pack i ≠ 0 := by
  intro h
  have hzero := toNat_pack e i
  rw [h] at hzero
  have hcode : 1 ≤ e.code := by cases e <;> decide
  have hnil : (0 : Int32).toUInt32.toNat = 0 := rfl
  omega

end ErrorCode

/-! ### The relation between the machines -/

/-- One step inside a segment. -/
theorem Image.advance_compiled (m : Image) (r : Routine) (pc : Nat) (segment : CompiledSegment) (i : Nat)
    (vars : Array Words) (s : State) : m.advance r ⟨.compiled pc segment i vars, s⟩ =
      match segment.code.advance r.constants (i, ⟨vars, s⟩) with
      | .next (j, a) => .next ⟨.compiled pc segment j a.vars, a.state⟩
      | .halt (e, s) => resume r pc segment e s := rfl

/-- The interpreting machine and one that executes compiled segments, in the middle of a run. -/
inductive Tracks (r : Routine) (c : Compiler) (start : State) : Running → Running → Prop
  | interpreting {i : Nat} {s u : State} (reaches : r.Reaches start i s)
      (alike : s.Alike false (r.LiveAt i) u) :
    Tracks r c start ⟨.interpreting i, s⟩ ⟨.interpreting i, u⟩
  | compiled {i : Nat} {s u : State} {plan : Native.Plan} {segment : CompiledSegment}
      {vars : Array Words} (reaches : r.Reaches start i s)
      (isCompiled : Native.IsCompiled r c.config c.classifier plan segment.code)
      (short : r.code.size ≤ maxCompiledLength) (length : segment.length = plan.range.length)
      (inside : Native.Inside r plan i s ⟨vars, u⟩) :
    Tracks r c start ⟨.interpreting i, s⟩ ⟨.compiled plan.range.first segment i vars, u⟩

/-- Inside a segment a machine is low, right behind one it is high. -/
def Running.rank : Running → Nat
  | ⟨.interpreting _, _⟩ => 1
  | ⟨.compiled _ segment i _, _⟩ => if segment.code.range.last < i then 2 else 0

namespace Tracks

variable {r : Routine} {c : Compiler} {start s u : State} {i : Nat} {ins : Instruction} {m : Image}

/-- The same instruction executed by both machines. -/
theorem matches_interpret (hregs : r.types.size ≤ UInt16.size) (hconf : r.Conformant start)
    (hreaches : r.Reaches start i s) (hins : r.code[i]? = some ins)
    (halike : s.Alike false (r.LiveAt i) u) {x y : Running} :
    Matches (Tracks r c start) (Outcome.Alike false) Running.rank x y
      (Image.interpret r i ins s) (Image.interpret r i ins u) := by
  have hwide := (hconf i s ins hreaches hins).wide
  have hsteps := r.stepsAlike_interpret hregs hins halike (.inr hwide)
  generalize hx : Image.interpret r i ins s = x', Image.interpret r i ins u = y' at hsteps
  cases hsteps with
  | next alike => exact .next (.interpreting (hreaches.step hins hx) alike)
  | halt alike => exact .halt alike

/-- Without compiled code an instruction is interpreted. -/
theorem advance_interpreted_of_some (hins : r.code[i]? = some ins) :
    (Image.interpreted r).advance r ⟨.interpreting i, s⟩ = Image.interpret r i ins s := by
  rw [Image.advance_interpreted, hins]

/-- **Outside segments**: the same instruction, or a marker where a segment is entered. -/
theorem matches_interpreting (hregs : r.types.size ≤ UInt16.size) (hconf : r.Conformant start)
    (hm : m.Executes r c) (hreaches : r.Reaches start i s) (halike : s.Alike false (r.LiveAt i) u) :
    Matches (Tracks r c start) (Outcome.Alike false) Running.rank ⟨.interpreting i, s⟩
      ⟨.interpreting i, u⟩ ((Image.interpreted r).advance r ⟨.interpreting i, s⟩)
      (m.advance r ⟨.interpreting i, u⟩) := by
  cases himage : m.code[i]? with
  | none =>
    have hnone : r.code[i]? = none := by
      rw [Array.getElem?_eq_none_iff] at himage ⊢
      rwa [← hm.size]
    rw [Image.advance_interpreted, hnone, Image.advance, himage]
    exact .halt ⟨.refl _, halike.world⟩
  | some marker =>
    by_cases hmarker : marker.opcode = .callSegment
    · obtain ⟨segment, range, hsegment, hcompiles, rfl, hlength⟩ := hm.marked himage hmarker
      obtain ⟨plan, rfl, hplan, hlowered⟩ := hcompiles.exists_plan
      have hsound := SegmentFinder.soundRange_of_mem_find r hregs hcompiles.found
      have hnotCase : ¬IsCase r.code plan.range.first := by
        rintro ⟨ins, hins, hop⟩
        have hbegins := hsound.beginsInCases_eq_false
        rw [Native.beginsInCases, hins] at hbegins
        simp [hop] at hbegins
      have hins := Array.getElem?_eq_getElem (hsound.nonempty.trans_lt hsound.bounded)
      obtain ⟨a, henter, hinside⟩ := Native.exists_enter hplan hlowered
        (hconf _ s _ hreaches hins).typed halike hnotCase
      have hadvance : m.advance r ⟨.interpreting plan.range.first, u⟩ =
          .next ⟨.compiled plan.range.first segment plan.range.first a.vars, a.state⟩ := by
        rw [Image.advance, himage]
        dsimp only
        rw [if_pos hmarker, hsegment]
        dsimp only
        rw [henter, hlowered.range]
      rw [hadvance]
      refine .own (.compiled hreaches ⟨hregs, hplan, hsound, hlowered⟩ hcompiles.short hlength hinside) ?_
      have hlast : ¬segment.code.range.last < plan.range.first := by
        rw [hlowered.range]
        have := hplan.nonempty
        omega
      change (if segment.code.range.last < plan.range.first then 2 else 0) < 1
      rw [if_neg hlast]
      exact Nat.one_pos
    · have hins := hm.plain himage hmarker
      have hadvance : m.advance r ⟨.interpreting i, u⟩ = Image.interpret r i marker u := by
        rw [Image.advance, himage]
        dsimp only
        rw [if_neg hmarker]
      rw [advance_interpreted_of_some hins, hadvance]
      exact matches_interpret hregs hconf hreaches hins halike

/-- **Inside a segment** compiled code keeps pace, and leaves where the interpreter does. -/
theorem matches_compiled (hconf : r.Conformant start) (hreaches : r.Reaches start i s)
    {plan : Native.Plan} {segment : CompiledSegment} {vars : Array Words}
    (hc : Native.IsCompiled r c.config c.classifier plan segment.code)
    (hshort : r.code.size ≤ maxCompiledLength) (hlength : segment.length = plan.range.length)
    (hinside : Native.Inside r plan i s ⟨vars, u⟩) :
    Matches (Tracks r c start) (Outcome.Alike false) Running.rank ⟨.interpreting i, s⟩
      ⟨.compiled plan.range.first segment i vars, u⟩
      ((Image.interpreted r).advance r ⟨.interpreting i, s⟩)
      (m.advance r ⟨.compiled plan.range.first segment i vars, u⟩) := by
  have hnonempty := hc.isPlan.nonempty
  have hbounded := hc.isPlan.bounded
  have hbehind : plan.range.first + segment.length = plan.range.last + 1 := by
    rw [hlength, IndexRange.length]
    omega
  rw [Image.advance_compiled]
  rcases Nat.lt_or_ge plan.range.last i with hlt | hle
  · obtain ⟨u', hadvance, rfl, halike⟩ := hinside.exists_exit hc hlt
    rw [hadvance]
    dsimp only [Image.resume]
    rw [if_neg (not_not_intro rfl), hbehind]
    refine .own (.interpreting hreaches halike) ?_
    change 1 < if segment.code.range.last < plan.range.last + 1 then 2 else 0
    rw [hc.lowered.range, if_pos hlt]
    exact Nat.one_lt_two
  · have hins := Array.getElem?_eq_getElem (hle.trans_lt hbounded)
    have hconforms := hconf i s _ hreaches hins
    rw [advance_interpreted_of_some hins]
    by_cases hop : r.code[i].opcode = .ret
    · obtain ⟨u', hadvance, halike⟩ := hinside.exists_leave hc hle hins hop
      rw [hadvance]
      dsimp only [Image.resume]
      rw [if_neg (not_not_intro rfl), hins]
      exact matches_interpret hc.regs hconf hreaches hins halike
    · have hpace := hinside.keepsPace hc hle hins hconforms hop
      generalize hx : Image.interpret r i r.code[i] s = x,
        segment.code.advance r.constants (i, ⟨vars, u⟩) = y at hpace
      cases hpace with
      | next inside => exact .next (.compiled (hreaches.step hins hx) hc hshort hlength inside)
      | exit alike =>
        dsimp only [Image.resume]
        rw [if_neg (not_not_intro rfl), hbehind]
        exact .next (.interpreting (hreaches.step hins hx) alike)
      | @failed e t u' world =>
        have hindex : i < 65536 := by
          have hshort : r.code.size ≤ 65536 := hshort
          omega
        dsimp only [Image.resume]
        rw [if_pos (ErrorCode.pack_ne_zero e i), ErrorCode.unpack?_pack e hindex]
        exact .halt ⟨rfl, world⟩
      | @broken f t u' other world =>
        refine .halt ⟨?_, world⟩
        cases f with
        | code e => exact absurd rfl (other e)
        | notExecutable op => rfl
        | fault f => rfl

end Tracks

/-- **Compiled segments simulate the interpreter** on a run that keeps to the declared types. -/
theorem Image.Executes.simulates {r : Routine} {c : Compiler} {m : Image} {start : State}
    (hm : m.Executes r c) (hregs : r.types.size ≤ UInt16.size) (hconf : r.Conformant start) :
    Simulates ((Image.interpreted r).advance r) (m.advance r) (Tracks r c start) (Outcome.Alike false)
      Running.rank := by
  rintro x y (⟨reaches, alike⟩ | ⟨reaches, isCompiled, short, length, inside⟩)
  · exact Tracks.matches_interpreting hregs hconf hm reaches alike
  · exact Tracks.matches_compiled hconf reaches isCompiled short length inside

/-- A state is alike to itself. -/
theorem State.Alike.refl {strict : Bool} {L : Nat → Prop} (s : State) : s.Alike strict L s :=
  ⟨.refl (fun _ v => .inl (.refl v)) _, ⟨.refl _, .refl (fun _ => .refl) _, .refl _, .refl _, .refl _, rfl, rfl⟩⟩

/-- Started in the same state, one routine ends if and only if the other does, with the same error or results
that are alike, and in states alike outside the register file. -/
structure Published.RunsLike (p q : Published) (start : State) : Prop where
  ends : (∃ n o, p.run n start = some o) ↔ ∃ n o, q.run n start = some o
  alike : ∀ {n m : Nat} {o o' : Outcome}, p.run n start = some o → q.run m start = some o' → o.Alike false o'

/-- An image whose markers stand for compiled segments runs like the interpreter. -/
theorem Image.Executes.runsLike {r : Routine} {c : Compiler} {p : Published} {start : State}
    (hp : p.routine = r) (hm : p.image.Executes r c) (hregs : r.types.size ≤ UInt16.size)
    (hconf : r.Conformant start) : (Published.fresh r).RunsLike p start := by
  have hsim := hm.simulates hregs hconf
  have hstart : Tracks r c start ⟨.interpreting 0, start⟩ ⟨.interpreting 0, start⟩ :=
    .interpreting .start (.refl start)
  have hrun (n : Nat) : p.run n start = iterate (p.image.advance r) n ⟨.interpreting 0, start⟩ := by
    rw [Published.run, hp]
    rfl
  refine ⟨⟨fun ⟨n, o, ho⟩ => ?_, fun ⟨n, o, ho⟩ => ?_⟩, fun ho ho' => ?_⟩
  · obtain ⟨m, o', ho', -⟩ := hsim.exists_right hstart ho
    exact ⟨m, o', (hrun m).trans ho'⟩
  · obtain ⟨m, o', ho', -⟩ := hsim.exists_left hstart ((hrun n).symm.trans ho)
    exact ⟨m, o', ho'⟩
  · exact hsim.related hstart ho ((hrun _).symm.trans ho')

/-- **Compilation is transparent.** Whatever the settings and the classifier, a routine runs after compilation
as it runs interpreted, from every state from which the interpreted run keeps to the declared types. -/
theorem Published.runsLike_compile (r : Routine) (hregs : r.types.size ≤ 65536) (c : Compiler) {start : State}
    (hconf : r.Conformant start) :
    (Published.fresh r).RunsLike ((Published.fresh r).compile c).2 start := by
  obtain ⟨hroutine, hexecutes⟩ := Published.executes_compile r c
  exact hexecutes.runsLike hroutine hregs hconf

/-- The countdown from two keeps to its types. -/
theorem Published.runsLike_compile_countdown :
    let start : State := ⟨⟨#[.ofInt 2, .ofInt 0], .none, #[]⟩, {}, default, "", default⟩
    Routine.countdown.types.size ≤ 65536 ∧ Routine.countdown.Conformant start ∧
      (Published.fresh .countdown).RunsLike ((Published.fresh .countdown).compile {}).2 start := by
  intro start
  have hregs : Routine.countdown.types.size ≤ 65536 := by decide
  have htyped : start.Typed .countdown := by decide
  have hslots : start.PlainSlots start.Exposes :=
    ⟨nofun, nofun, nofun, fun id o _ ho => nomatch ho⟩
  have hconf : Routine.countdown.Conformant start := by
    refine Routine.conformant_of_accessesScalars ?_ htyped hslots fun i s ins _ hins => ?_
    · decide
    · have hi : i < 5 := (Array.getElem?_eq_some_iff.1 hins).1
      interval_cases i <;> cases hins <;> trivial
  exact ⟨hregs, hconf, runsLike_compile .countdown hregs {} hconf⟩

/-! ### Routines that access scalars -/

/-- **Typed access to scalar slots is exact.** A routine that computes with scalars and moves them between
registers and slots runs after compilation as it runs interpreted, under whatever types its slots are accessed,
as long as what is read as a truth value is zero or one and what is read as a complex number has two words. -/
theorem Published.runsLike_compile_of_accessesScalars (r : Routine) (hregs : r.types.size ≤ 65536)
    (hr : r.AccessesScalars) (c : Compiler) {start : State} (htyped : start.Typed r)
    (hslots : start.PlainSlots start.Exposes)
    (hreads : ∀ i s ins, r.Reaches start i s → r.code[i]? = some ins → ins.ReadsFit s) :
    (Published.fresh r).RunsLike ((Published.fresh r).compile c).2 start := by
  obtain ⟨hroutine, hexecutes⟩ := Published.executes_compile r c
  exact hexecutes.runsLike hroutine hregs (Routine.conformant_of_accessesScalars hr htyped hslots hreads)

/-- Stores an integer into a global and reads it back as a float. -/
def Routine.reinterpret : Routine where
  name := "reinterpret"
  code := #[⟨.setVar .globals .int, 0, 0, 0, 0⟩, ⟨.getVar .globals .float, 0, 0, 1, 0⟩, ⟨.ret, 1, 1, 0, 0⟩]
  types := #[.int, .float]
  constants := #[]
  checked := by decide

/-- The global is read as a float, interpreted and compiled alike. -/
theorem Published.runsLike_compile_reinterpret :
    let start : State := ⟨⟨#[.ofInt 7, .ofFloat 0], .none, #[]⟩, ⟨#[], #[.ofBool true]⟩, default, "", default⟩
    Routine.reinterpret.types.size ≤ 65536 ∧ Routine.reinterpret.AccessesScalars ∧ start.Typed .reinterpret ∧
      start.PlainSlots start.Exposes ∧
      (∀ i s ins, Routine.reinterpret.Reaches start i s → Routine.reinterpret.code[i]? = some ins →
        ins.ReadsFit s) ∧
      (Published.fresh .reinterpret).RunsLike ((Published.fresh .reinterpret).compile {}).2 start := by
  intro start
  have hregs : Routine.reinterpret.types.size ≤ 65536 := by decide
  have hr : Routine.reinterpret.AccessesScalars := by decide
  have htyped : start.Typed .reinterpret := by decide
  have hslots : start.PlainSlots start.Exposes :=
    ⟨nofun, by decide, nofun, fun id o _ ho => nomatch ho⟩
  have hreads : ∀ i s ins, Routine.reinterpret.Reaches start i s → Routine.reinterpret.code[i]? = some ins →
      ins.ReadsFit s := by
    intro i s ins _ hins
    have hi : i < 3 := (Array.getElem?_eq_some_iff.1 hins).1
    interval_cases i <;> cases hins
    · trivial
    · exact ⟨nofun, nofun⟩
    · trivial
  exact ⟨hregs, hr, htyped, hslots, hreads,
    runsLike_compile_of_accessesScalars .reinterpret hregs hr {} htyped hslots hreads⟩

/-- Reads a global as a truth value and counts it. -/
def Routine.countsTruth : Routine where
  name := "countsTruth"
  code := #[⟨.getVar .globals .bool, 0, 0, 0, 0⟩, ⟨.convert .intOfBool, 0, 0, 1, 0⟩, ⟨.ret, 1, 1, 0, 0⟩]
  types := #[.bool, .int]
  constants := #[]
  checked := by decide

/-- Stores an integer into a global and reads it back as a complex number. -/
def Routine.widens : Routine where
  name := "widens"
  code := #[⟨.setVar .globals .int, 0, 0, 0, 0⟩, ⟨.getVar .globals .complex, 0, 0, 1, 0⟩, ⟨.ret, 1, 1, 0, 0⟩]
  types := #[.int, .complex]
  constants := #[]
  checked := by decide

/-- **Compiled code does not normalize what it loads.** A global that holds five is read as the truth value one
by the interpreter and as five by compiled code. An integer stored over a complex number reads back with no
imaginary part in the interpreter, and with the old one in compiled code. -/
theorem Published.run_compile_differs :
    let truth : State := ⟨⟨#[.ofBool false, .ofInt 0], .none, #[]⟩, ⟨#[], #[.ofInt 5]⟩, default, "", default⟩
    let pair : State := ⟨⟨#[.ofInt 7, .ofComplex ⟨0, 0⟩], .none, #[]⟩,
      ⟨#[], #[.ofComplex ⟨1, 2⟩]⟩, default, "", default⟩
    (Routine.countsTruth.AccessesScalars ∧ truth.Typed .countsTruth ∧ truth.PlainSlots truth.Exposes ∧
      ((Published.fresh .countsTruth).run 10 truth).map (·.result) = some (.ok (.ofInt 1)) ∧
      (((Published.fresh .countsTruth).compile {}).2.run 10 truth).map (·.result) = some (.ok (.ofInt 5))) ∧
    Routine.widens.AccessesScalars ∧ pair.Typed .widens ∧ pair.PlainSlots pair.Exposes ∧
      ((Published.fresh .widens).run 10 pair).map (·.result) = some (.ok (.ofComplex ⟨7, 0⟩)) ∧
      (((Published.fresh .widens).compile {}).2.run 10 pair).map (·.result) =
        some (.ok (.ofComplex ⟨7, 2⟩)) := by
  intro truth pair
  have htruth : truth.PlainSlots truth.Exposes := ⟨nofun, by decide, nofun, fun id o _ ho => nomatch ho⟩
  have hpair : pair.PlainSlots pair.Exposes := ⟨nofun, by decide, nofun, fun id o _ ho => nomatch ho⟩
  exact ⟨⟨by decide, by decide, htruth, by decide +kernel, by cbv⟩, by decide, by decide, hpair,
    by decide +kernel, by cbv⟩

end RegisterVM
