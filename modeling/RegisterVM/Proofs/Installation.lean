import RegisterVM.Proofs.Compilation
import RegisterVM.Proofs.LoweredBody

/-!
# What a compiled image executes

Compiling a routine puts a marker at the start of every range that was found and compiled, and leaves
the rest of the code alone. So at every index an image has the instruction of the routine, or a marker
whose segment is in the table (`Image.Executes`); one installation keeps this (`Image.Executes.install`),
and compiling is a sequence of installations.

A segment number is kept in an operand of 32 bits. It comes back as it was because there are no more
segments than instructions, and a routine that is compiled at all is short.
-/

namespace RegisterVM

/-- A range of a routine that was found, planned and lowered to some code. -/
structure Compiles (r : Routine) (c : Compiler) (range : IndexRange) (code : Native.Code) : Prop where
  short : r.code.size ≤ maxCompiledLength
  found : range ∈ c.finder.find r.code r.types
  compiled : ∃ plan, Native.Plan.build r.code r.types (.ofCode r.code r.types.size) range c.config = .ok plan ∧
    plan.lower r = .ok code

/-- **Every index has its instruction or a marker** for a range that starts there. -/
structure Image.Executes (r : Routine) (c : Compiler) (m : Image) : Prop where
  size : m.code.size = r.code.size
  plain : ∀ {i : Nat} {ins : Instruction}, m.code[i]? = some ins → ins.opcode ≠ .callSegment → r.code[i]? = some ins
  marked : ∀ {i : Nat} {ins : Instruction}, m.code[i]? = some ins → ins.opcode = .callSegment → ∃ segment range,
    m.segments[placeOf ins.a]? = some segment ∧ Compiles r c range segment.code ∧
      i = range.first ∧ segment.length = range.length

/-- What is found lies in the code and is not empty. -/
theorem SegmentFinder.mem_find_bounds (r : Routine) {f : SegmentFinder} {range : IndexRange}
    (h : range ∈ f.find r.code r.types) : range.first ≤ range.last ∧ range.last < r.code.size := by
  have hsep := separated_find r f
  exact ⟨hsep.nonempty range h, hsep.bounded range h⟩

/-- There are no more segments than instructions. -/
theorem SegmentFinder.length_find_le (r : Routine) (f : SegmentFinder) :
    (f.find r.code r.types).length ≤ r.code.size :=
  (separated_find r f).length_le

/-- Compiled code was lowered from a plan for its range. -/
theorem Compiles.exists_plan {r : Routine} {c : Compiler} {range : IndexRange} {code : Native.Code}
    (h : Compiles r c range code) :
    ∃ plan, plan.range = range ∧ Native.IsPlan r c.config plan ∧ Native.Lowered r plan code := by
  obtain ⟨plan, hbuild, hlower⟩ := h.compiled
  obtain ⟨hrange, hplan⟩ := Native.Plan.isPlan_of_build hbuild
  exact ⟨plan, hrange, hplan, Native.lowered_of_lower hplan hlower⟩

/-- A segment number read back from the operand of its marker. -/
theorem placeOf_ofNat {n : Nat} (h : n < 2147483648) : placeOf (Int32.ofNat n) = n := by
  have hint : (Int32.ofNat n).toInt = n := Int32.toInt_ofNat_of_lt h
  rw [placeOf_of_nonneg (by omega), hint, Int.toNat_natCast]

namespace Image

variable {r : Routine} {c : Compiler} {m : Image}

/-- The image of an interpreted routine executes it. -/
theorem executes_interpreted (r : Routine) (c : Compiler) : (interpreted r).Executes r c where
  size := rfl
  plain h _ := h
  marked h hop := absurd hop (r.opcode_ne_callSegment h)

/-- **One installation.** -/
theorem Executes.install (h : m.Executes r c) {range : IndexRange} {code : Native.Code}
    (hcompiles : Compiles r c range code) (hcount : m.segments.size < r.code.size) :
    (m.install range code).Executes r c ∧
      (m.install range code).segments.size = m.segments.size + 1 := by
  obtain ⟨hfirst, hlast⟩ := SegmentFinder.mem_find_bounds r hcompiles.found
  have hlt : range.first < m.code.size := by
    rw [h.size]
    omega
  have hshort : r.code.size ≤ 65536 := hcompiles.short
  have hplace : placeOf (Int32.ofNat m.segments.size) = m.segments.size := placeOf_ofNat (by omega)
  unfold Image.install
  rw [Array.getElem?_eq_getElem hlt]
  dsimp only
  refine ⟨⟨?_, fun {i ins} hi hop => ?_, fun {i ins} hi hop => ?_⟩, Array.size_push _⟩
  · exact Array.size_setIfInBounds.trans h.size
  · rw [Array.getElem?_setIfInBounds] at hi
    split at hi
    · cases hi
      exact absurd rfl hop
    · exact h.plain hi hop
  · rw [Array.getElem?_setIfInBounds] at hi
    split at hi
    · rename_i heq
      cases hi
      refine ⟨⟨range.first, range.length, code, m.code[range.first]⟩, range, ?_, hcompiles, heq.symm, rfl⟩
      rw [hplace]
      exact Array.getElem?_push_size
    · obtain ⟨segment, range', hsegment, hrest⟩ := h.marked hi hop
      refine ⟨segment, range', ?_, hrest⟩
      have hsize := (Array.getElem?_eq_some_iff.1 hsegment).1
      rw [Array.getElem?_push_lt hsize, ← hsegment, Array.getElem?_eq_getElem hsize]

/-- Installations one after another, as long as there are numbers for the segments. -/
theorem Executes.foldl_install {compiled : List (IndexRange × Native.Code)} (h : m.Executes r c)
    (hcompiles : ∀ x ∈ compiled, Compiles r c x.1 x.2)
    (hcount : m.segments.size + compiled.length ≤ r.code.size) :
    (compiled.foldl (fun m (range, code) => m.install range code) m).Executes r c := by
  induction compiled generalizing m with
  | nil => exact h
  | cons x rest ih =>
    rw [List.length_cons] at hcount
    obtain ⟨hnext, hsize⟩ := h.install (hcompiles x List.mem_cons_self) (by omega)
    refine ih hnext (fun y hy => hcompiles y (List.mem_cons_of_mem _ hy)) ?_
    rw [hsize]
    omega

end Image

namespace Compiler

variable {r : Routine} {c : Compiler} {facts : Dataflow} {ranges : List IndexRange} {asked : List Native.Request}

/-- Code comes from one of the ranges, planned and lowered; what the backend refuses has none. -/
theorem exists_lower_of_mem_compileAll {x : IndexRange × Native.Code}
    (h : x ∈ (c.compileAll r facts ranges asked).compiled) :
    x.1 ∈ ranges ∧ ∃ plan, Native.Plan.build r.code r.types facts x.1 c.config = .ok plan ∧ plan.lower r = .ok x.2 := by
  induction ranges generalizing asked with
  | nil => exact absurd h List.not_mem_nil
  | cons range ranges ih =>
    unfold compileAll at h
    cases hcompile : c.backend.compileRange r facts c.config range asked with
    | error e asked' =>
      rw [hcompile] at h
      exact (ih h).imp_left (List.mem_cons_of_mem range)
    | ok code asked' =>
      rw [hcompile] at h
      rcases List.mem_cons.1 h with rfl | h
      · exact ⟨List.mem_cons_self, Native.Backend.exists_lower_of_compileRange hcompile⟩
      · exact (ih h).imp_left (List.mem_cons_of_mem range)

/-- There are no more compiled ranges than were asked for. -/
theorem length_compiled_le (c : Compiler) (r : Routine) (facts : Dataflow) (ranges : List IndexRange)
    (asked : List Native.Request) : (c.compileAll r facts ranges asked).compiled.length ≤ ranges.length := by
  induction ranges generalizing asked with
  | nil => exact Nat.le_refl 0
  | cons range ranges ih =>
    unfold compileAll
    split
    · exact Nat.succ_le_succ (ih _)
    · exact Nat.le_succ_of_le (ih _)

end Compiler

/-- **Compiling leaves an image of the routine**, whatever the backend refuses. -/
theorem Published.executes_compile (r : Routine) (c : Compiler) :
    ((fresh r).compile c).2.routine = r ∧ ((fresh r).compile c).2.image.Executes r c := by
  by_cases hshort : r.code.size ≤ maxCompiledLength
  · rcases compile_fresh hshort c with ⟨e, -, hcompile⟩ | hcompile
    · rw [hcompile]
      exact ⟨rfl, Image.executes_interpreted r c⟩
    · rw [hcompile]
      refine ⟨rfl, (Image.executes_interpreted r c).foldl_install (fun x hx => ?_) ?_⟩
      · obtain ⟨hfound, hcompiled⟩ := Compiler.exists_lower_of_mem_compileAll hx
        exact ⟨hshort, hfound, hcompiled⟩
      · have hlength := c.length_compiled_le r (.ofCode r.code r.types.size) (c.finder.find r.code r.types) []
        have hfound := SegmentFinder.length_find_le r c.finder
        change 0 + _ ≤ _
        omega
  · have hlong : (fresh r).compile c = (.error (.tooLong r.name r.code.size),
        { fresh r with stage := .interpreted }) := by
      unfold compile fresh
      dsimp only
      rw [if_neg (not_not_intro rfl), if_pos (Nat.not_le.1 hshort)]
    rw [hlong]
    exact ⟨rfl, Image.executes_interpreted r c⟩

end RegisterVM
