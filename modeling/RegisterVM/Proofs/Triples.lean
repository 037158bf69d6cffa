import RegisterVM.Proofs.ExecAlike

/-!
# Triples

`Triple P m Q E` says what an action does from states with `P`: it ends normally with `Q`, or fails with
`E`. An action is taken apart by `Triple.bind`, and what the state before tells about its values can be
used behind it (`Triple.assuming`).

An invariant is kept by an action whichever way it ends (`Keeps`), and an action may besides fail only in
certain ways (`Within`). Most actions only look at the state (`Looks`); they keep every invariant.
-/

namespace RegisterVM

/-! ### The state an action leaves -/

/-- The state an action leaves, whether or not it fails. -/
def stateAfter {ε σ α : Type} (m : EStateM ε σ α) (s : σ) : σ :=
  match m s with
  | .ok _ t | .error _ t => t

section

variable {ε σ α β : Type} {m : EStateM ε σ α} {f : α → EStateM ε σ β} {s t : σ}

/-- After a success, the state is the one returned. -/
theorem stateAfter_of_ok {a : α} (h : m s = .ok a t) : stateAfter m s = t := by
  rw [stateAfter, h]

/-- After a failure, the state is the one at which it failed. -/
theorem stateAfter_of_error {e : ε} (h : m s = .error e t) : stateAfter m s = t := by
  rw [stateAfter, h]

/-- What both ends of a sequence leave. -/
theorem stateAfter_bind {P : σ → Prop} (hm : P (stateAfter m s))
    (hf : ∀ a u, m s = .ok a u → P (stateAfter (f a) u)) : P (stateAfter (m >>= f) s) := by
  cases hs : m s with
  | ok a u =>
    have hbind : (m >>= f) s = f a u := bind_of_ok hs
    have hfa := hf a u hs
    rwa [stateAfter, ← hbind] at hfa
  | error e u =>
    have hbind : (m >>= f) s = .error e u := by
      change EStateM.bind m f s = _
      unfold EStateM.bind
      rw [hs]
    rw [stateAfter_of_error hs] at hm
    rwa [stateAfter_of_error hbind]

end

/-- An action that only looks at the state. -/
def Looks {ε σ α : Type} (m : EStateM ε σ α) : Prop := ∀ s, stateAfter m s = s

namespace Looks

variable {ε σ α β : Type} {m : EStateM ε σ α} {f : α → EStateM ε σ β}

/-- Looking at something leaves the state as it is. -/
theorem eq_of_ok (h : Looks m) {s t : σ} {a : α} (hm : m s = .ok a t) : t = s := by
  rw [← stateAfter_of_ok hm, h s]

/-- Returning a value looks at nothing. -/
theorem pure (a : α) : Looks (pure a : EStateM ε σ α) := fun _ => rfl

/-- Failing changes nothing. -/
theorem throw (e : ε) : Looks (throw e : EStateM ε σ α) := fun _ => rfl

/-- Reading the state does not change it. -/
theorem get : Looks (MonadState.get : EStateM ε σ σ) := fun _ => rfl

/-- Looking twice is looking. -/
theorem bind (hm : Looks m) (hf : ∀ a, Looks (f a)) : Looks (m >>= f) := fun s => by
  refine stateAfter_bind (P := (· = s)) (hm s) fun a t ht => ?_
  rw [hf a t, hm.eq_of_ok ht]

/-- Looking at everything on a list is looking. -/
theorem mapM {f : α → EStateM ε σ β} (hf : ∀ a, Looks (f a)) (l : List α) : Looks (l.mapM f) := by
  induction l with
  | nil => exact pure _
  | cons a l ih =>
    rw [List.mapM_cons]
    exact .bind (hf a) fun _ => .bind ih fun _ => pure _

end Looks

/-! ### Triples -/

/-- From states with `P` an action ends with `Q`, or fails with `E`. -/
def Triple {ε σ α : Type} (P : σ → Prop) (m : EStateM ε σ α) (Q : α → σ → Prop) (E : ε → σ → Prop) : Prop :=
  ∀ s, P s → match m s with
    | .ok a t => Q a t
    | .error e t => E e t

namespace Triple

variable {ε σ α β : Type} {P P' : σ → Prop} {Q Q' : α → σ → Prop} {R : β → σ → Prop} {E E' : ε → σ → Prop}
  {m : EStateM ε σ α} {f : α → EStateM ε σ β} {s t : σ}

/-- What holds of a result and the state it comes with. -/
theorem ok (h : Triple P m Q E) (hs : P s) {a : α} (hm : m s = .ok a t) : Q a t := by
  have hend := h s hs
  rwa [hm] at hend

/-- What holds of an error and the state at which it comes. -/
theorem error (h : Triple P m Q E) (hs : P s) {e : ε} (hm : m s = .error e t) : E e t := by
  have hend := h s hs
  rwa [hm] at hend

/-- Returning a value: what is asked of the result has to hold before. -/
theorem pure {a : α} (h : ∀ s, P s → Q a s) : Triple P (pure a : EStateM ε σ α) Q E := fun s hs => h s hs

/-- Failing: what is asked of the error has to hold before. -/
theorem throw {e : ε} (h : ∀ s, P s → E e s) : Triple P (throw e : EStateM ε σ α) Q E := fun s hs => h s hs

/-- Reading the state gives a state in which the precondition holds. -/
theorem get : Triple P (MonadState.get : EStateM ε σ σ) (fun a s => a = s ∧ P s) E := fun _ hs => ⟨rfl, hs⟩

/-- Changing the state by a function that leads from the precondition to the postcondition. -/
theorem modify {g : σ → σ} {Q : σ → Prop} (h : ∀ s, P s → Q (g s)) :
    Triple P (modify g : EStateM ε σ Unit) (fun _ => Q) E := fun s hs => h s hs

/-- Actions in sequence, where the postcondition of the first is the precondition of the second and errors of both
meet one condition. -/
theorem bind (hm : Triple P m Q E) (hf : ∀ a, Triple (Q a) (f a) R E) : Triple P (m >>= f) R E := by
  intro s hs
  have hend := hm s hs
  change match EStateM.bind m f s with
    | .ok a t => R a t
    | .error e t => E e t
  unfold EStateM.bind
  cases hms : m s with
  | ok a t =>
    rw [hms] at hend
    exact hf a t hend
  | error e t =>
    rw [hms] at hend
    exact hend

/-- Preconditions can be strengthened, postconditions weakened. -/
theorem mono (h : Triple P' m Q' E') (hP : ∀ s, P s → P' s) (hQ : ∀ a s, Q' a s → Q a s)
    (hE : ∀ e s, E' e s → E e s) : Triple P m Q E := by
  intro s hs
  have hend := h s (hP s hs)
  cases hms : m s with
  | ok a t =>
    rw [hms] at hend
    exact hQ a t hend
  | error e t =>
    rw [hms] at hend
    exact hE e t hend

/-- An invariant that holds after success and after failure holds of the state after an action. -/
theorem stateAfter {I : σ → Prop} (h : Triple P m (fun _ => I) fun _ => I) (hs : P s) : I (stateAfter m s) := by
  cases hm : m s with
  | ok a t => exact stateAfter_of_ok hm ▸ h.ok hs hm
  | error e t => exact stateAfter_of_error hm ▸ h.error hs hm

/-- What the states before tell can be used throughout. -/
theorem assuming {φ : Prop} (hφ : ∀ s, P s → φ) (h : φ → Triple P m Q E) : Triple P m Q E :=
  fun s hs => h (hφ s hs) s hs

end Triple

/-- An action keeps an invariant, whether or not it fails. -/
def Keeps {ε σ α : Type} (I : σ → Prop) (m : EStateM ε σ α) : Prop := Triple I m (fun _ => I) fun _ => I

/-- What an action that only looks sees is still so behind it. -/
theorem Looks.triple {ε σ α : Type} {m : EStateM ε σ α} (h : Looks m) {I : σ → Prop} :
    Triple I m (fun a s => m s = .ok a s ∧ I s) fun _ => I := by
  intro s hs
  have hafter := h s
  cases hm : m s with
  | ok a t =>
    rw [stateAfter_of_ok hm] at hafter
    subst hafter
    exact ⟨hm, hs⟩
  | error e t =>
    rw [stateAfter_of_error hm] at hafter
    subst hafter
    exact hs

/-- An action that only looks keeps every invariant. -/
theorem Looks.keeps {ε σ α : Type} {m : EStateM ε σ α} (h : Looks m) {I : σ → Prop} : Keeps I m :=
  h.triple.mono (fun _ hs => hs) (fun _ _ hs => hs.2) fun _ _ hs => hs

namespace Keeps

variable {ε σ α β : Type} {I : σ → Prop}

/-- Actions that keep an invariant keep it in sequence. -/
theorem bind {m : EStateM ε σ α} {f : α → EStateM ε σ β} (hm : Keeps I m) (hf : ∀ a, Keeps I (f a)) :
    Keeps I (m >>= f) := Triple.bind hm hf

/-- Returning a value keeps every invariant. -/
theorem pure (a : α) : Keeps I (pure a : EStateM ε σ α) := Triple.pure fun _ hs => hs

/-- Failing keeps every invariant. -/
theorem throw (e : ε) : Keeps I (throw e : EStateM ε σ α) := Triple.throw fun _ hs => hs

/-- A change of the state that keeps an invariant, as an action. -/
theorem modify {f : σ → σ} (hf : ∀ s, I s → I (f s)) : Keeps I (modify f : EStateM ε σ Unit) :=
  Triple.modify hf

/-- An invariant kept at each member of a list is kept by going through it for results. -/
theorem mapM {f : α → EStateM ε σ β} (hf : ∀ a, Keeps I (f a)) (l : List α) : Keeps I (l.mapM f) := by
  induction l with
  | nil => exact pure _
  | cons a l ih =>
    rw [List.mapM_cons]
    exact .bind (hf a) fun _ => .bind ih fun _ => pure _

/-- An invariant kept at each member of a list is kept by going through it. -/
theorem forM {f : α → EStateM ε σ PUnit} (hf : ∀ a, Keeps I (f a)) (l : List α) : Keeps I (l.forM f) := by
  induction l with
  | nil => exact pure _
  | cons a l ih => exact .bind (hf a) fun _ => ih

end Keeps

/-- An action keeps an invariant and fails only in the ways of `F`. -/
def Within {ε σ α : Type} (I : σ → Prop) (F : ε → Prop) (m : EStateM ε σ α) : Prop :=
  Triple I m (fun _ => I) fun e s => F e ∧ I s

namespace Within

variable {ε σ α β : Type} {I : σ → Prop} {F : ε → Prop}

/-- Where no failure is ruled out, keeping the invariant is enough. -/
theorem of_keeps {m : EStateM ε σ α} (h : Keeps I m) (hF : ∀ e, F e) : Within I F m :=
  Triple.mono h (fun _ hs => hs) (fun _ _ hs => hs) fun e _ hs => ⟨hF e, hs⟩

/-- Actions that stay within an invariant and its failures do so in sequence. -/
theorem bind {m : EStateM ε σ α} {f : α → EStateM ε σ β} (hm : Within I F m) (hf : ∀ a, Within I F (f a)) :
    Within I F (m >>= f) := Triple.bind hm hf

/-- Returning a value does not fail. -/
theorem pure (a : α) : Within I F (pure a : EStateM ε σ α) := Triple.pure fun _ hs => hs

/-- Failing is fine if the failure is one of those allowed. -/
theorem throw {e : ε} (h : F e) : Within I F (throw e : EStateM ε σ α) := Triple.throw fun _ hs => ⟨h, hs⟩

/-- Reading the state does not fail. -/
theorem get : Within I F (MonadState.get : EStateM ε σ σ) := fun _ hs => hs

/-- A change of the state that keeps the invariant does not fail. -/
theorem modify {f : σ → σ} (hf : ∀ s, I s → I (f s)) : Within I F (modify f : EStateM ε σ Unit) :=
  Triple.modify hf

/-- Going through a list for results fails only as the members do. -/
theorem mapM {f : α → EStateM ε σ β} {l : List α} (hf : ∀ a ∈ l, Within I F (f a)) : Within I F (l.mapM f) := by
  induction l with
  | nil => exact pure _
  | cons a l ih =>
    rw [List.mapM_cons]
    exact .bind (hf a List.mem_cons_self) fun _ =>
      .bind (ih fun b hb => hf b (List.mem_cons_of_mem a hb)) fun _ => pure _

/-- Going through a list fails only as the members do. -/
theorem forM {f : α → EStateM ε σ PUnit} {l : List α} (hf : ∀ a ∈ l, Within I F (f a)) : Within I F (l.forM f) := by
  induction l with
  | nil => exact pure _
  | cons a l ih => exact .bind (hf a List.mem_cons_self) fun _ => ih fun b hb => hf b (List.mem_cons_of_mem a hb)

end Within

/-! ### Actions that look at the heap or the state -/

namespace Heap

variable {α : Type}

/-- A result that has been computed, taken over as an action on the heap. -/
theorem looks_lift (e : Except ErrorCode α) : Looks (lift e) := by
  cases e with
  | ok a => exact .pure a
  | error e => exact .throw e

/-- Finding the object of a value looks at the heap only. -/
theorem looks_objectOf (kind : ObjectKind) (v : Value) : Looks (objectOf kind v) := by
  unfold objectOf
  split
  · refine .bind .get fun h => ?_
    split
    · split
      · exact .pure _
      · exact .throw _
    · exact .throw _
  · exact .throw _

/-- So does finding its slots. -/
theorem looks_slotsOf (kind : ObjectKind) (v : Value) : Looks (slotsOf kind v) :=
  .bind (looks_objectOf kind v) fun _ => .pure _

/-- Reading a slot of an object looks at the heap only. -/
theorem looks_readSlot (kind : ObjectKind) (v : Value) (i : Nat) : Looks (readSlot kind v i) := by
  refine .bind (looks_slotsOf kind v) fun ⟨_, slots⟩ => ?_
  dsimp only
  split
  · exact .pure _
  · exact .throw _

/-- Reading an item of a list looks at the heap only. -/
theorem looks_listItem (list : Value) (i : Int64) : Looks (listItem list i) :=
  .bind (looks_slotsOf .list list) fun _ => .bind (looks_lift _) fun _ => .pure _

/-- Reading a byte of a string looks at the heap only. -/
theorem looks_charAt (v : Value) (i : Int64) : Looks (charAt v i) := by
  refine .bind .get fun h => ?_
  split
  · exact .throw _
  · exact .bind (looks_lift _) fun _ => .pure _

/-- Asking for a size looks at the heap only. -/
theorem looks_size (v : Value) : Looks (size v) := by
  refine .bind .get fun h => ?_
  split
  · exact .pure _
  · exact .pure _
  · exact .pure _
  · exact .throw _

/-- Reading a number of an operand looks at the heap only. -/
theorem looks_sourceNumber (src : Value) (source : Operand) (i : Nat) : Looks (sourceNumber src source i) := by
  cases source with
  | scalar n => exact .pure n
  | array _ =>
    refine .bind .get fun h => ?_
    split
    · rw [Operand.fetch_eq]
      exact .pure _
    · exact .throw _

/-- An attempt keeps what the action keeps: it goes on with the heap as it was at the failure. -/
theorem keeps_attempt {I : Heap → Prop} {m : HeapM α} (hm : Keeps I m) : Keeps I (attempt m) := by
  intro h hh
  have hend := hm h hh
  unfold attempt
  cases hs : m h with
  | ok a k =>
    rw [hs] at hend
    exact hend
  | error e k =>
    rw [hs] at hend
    exact hend

/-- The contents of an array are looked at after it has been copied out. -/
theorem keeps_arrayContents {I : Heap → Prop} {v : Value} (hplain : Keeps I (plainArray v)) :
    Keeps I (arrayContents v) := by
  rw [arrayContents_eq]
  exact .bind hplain fun _ => .pure _

/-- The values of an array are looked at after it has been copied out. -/
theorem keeps_arrayValues {I : Heap → Prop} {v : Value} (hplain : Keeps I (plainArray v)) :
    Keeps I (arrayValues v) :=
  .bind (keeps_arrayContents hplain) fun _ => .pure _

/-- Writing a value out may copy views out, and does nothing else to the heap. -/
theorem keeps_textAt {I : Heap → Prop} (hplain : ∀ v, Keeps I (plainArray v)) (depth : Nat) (v : Value) :
    Keeps I (textAt depth v) := by
  induction depth generalizing v with
  | zero => exact .pure _
  | succ depth ih =>
    unfold textAt
    split
    · exact .pure _
    · exact .pure _
    · exact .pure _
    · exact .pure _
    · exact .pure _
    · exact .pure _
    · split
      · exact .bind Looks.get.keeps fun _ => .pure _
      · refine .bind (keeps_attempt (keeps_arrayValues (hplain _))) fun result => ?_
        cases result with
        | ok a => exact .bind (Keeps.mapM ih _) fun _ => .pure _
        | error e => exact .pure _
      · exact .bind Looks.get.keeps fun _ => .bind (Keeps.mapM ih _) fun _ => .pure _
      · exact .bind Looks.get.keeps fun _ => .bind (Keeps.mapM ih _) fun _ => .pure _
      · refine .bind Looks.get.keeps fun h => ?_
        split
        · exact .pure _
        · exact .pure _

/-- The text of a value copies out the arrays it comes to, and otherwise only looks. -/
theorem keeps_text {I : Heap → Prop} (hplain : ∀ v, Keeps I (plainArray v)) (v : Value) : Keeps I (text v) :=
  .bind Looks.get.keeps fun _ => keeps_textAt hplain _ v

end Heap

namespace Exec

variable {α : Type}

/-- An action that looks at the heap looks at the state. -/
theorem looks_onHeap {m : HeapM α} (h : Looks m) : Looks (onHeap m) := by
  intro s
  have hheap := h s.heap
  unfold stateAfter at hheap ⊢
  rw [onHeap_eq]
  cases hm : m s.heap with
  | ok a k =>
    rw [hm] at hheap
    exact congrArg (fun k => { s with heap := k }) hheap
  | error e k =>
    rw [hm] at hheap
    exact congrArg (fun k => { s with heap := k }) hheap

/-- Reading a register changes nothing. -/
theorem looks_register (i : Nat) : Looks (register i) := by
  refine .bind .get fun s => ?_
  cases s.frame.registers[i]? with
  | none => exact .throw _
  | some v => exact .pure v

/-- Reading a slot of a row of slots changes nothing. -/
theorem looks_slotOf (slots : Array Value) (i : Nat) : Looks (slotOf slots i) := by
  unfold slotOf
  cases slots[i]? with
  | none => exact .throw _
  | some v => exact .pure v

/-- Reading a place changes nothing, wherever it is. -/
theorem looks_read (p : Place) : Looks (read p) := by
  cases p with
  | register i => exact looks_register i
  | receiver i => exact .bind .get fun s => looks_onHeap (Heap.looks_readSlot _ _ _)
  | statics i => exact .bind .get fun s => looks_slotOf _ _
  | globals i => exact .bind .get fun s => looks_slotOf _ _
  | outer depth i =>
    refine .bind .get fun s => ?_
    cases s.frame.outer[depth]? with
    | none => exact .throw _
    | some registers => exact looks_slotOf _ _
  | item kind q i => exact .bind (looks_register q) fun v => looks_onHeap (Heap.looks_readSlot _ _ _)

/-- Checking the tag of a value changes nothing. -/
theorem looks_checkTag (v : Value) (expected : Option Tag) : Looks (checkTag v expected) := by
  unfold checkTag
  split
  · exact .pure _
  · exact .throw _

/-- A result that has been computed, taken over as an action on the state. -/
theorem looks_ofExcept (e : Except ErrorCode α) : Looks (ofExcept e) := by
  cases e with
  | ok a => exact .pure a
  | error e => exact .throw _

section

variable {I : State → Prop} {F : Failure → Prop} (hcode : ∀ e, F (.code e))

include hcode

/-- Checking a tag fails with an error code, if at all. -/
theorem within_checkTag (v : Value) (expected : Option Tag) : Within I F (checkTag v expected) := by
  unfold checkTag
  split
  · exact .pure _
  · exact .throw (hcode .value)

/-- A computed result fails with an error code, if at all. -/
theorem within_ofExcept (e : Except ErrorCode α) : Within I F (ofExcept e) := by
  cases e with
  | ok a => exact .pure a
  | error e => exact .throw (hcode e)

end

end Exec

namespace Step

open Exec

/-- Reading the register of an operand changes nothing. -/
theorem looks_reg (x : Int32) : Looks (reg x) := looks_register _

/-- Reading its payload words changes nothing. -/
theorem looks_words (x : Int32) : Looks (words x) := .bind (looks_reg x) fun _ => .pure _

/-- Reading it as an integer changes nothing. -/
theorem looks_int (x : Int32) : Looks (int x) := .bind (looks_words x) fun _ => .pure _

/-- Looking a constant up changes nothing. -/
theorem looks_constant (r : Routine) (x : Int32) : Looks (constant r x) := by
  unfold constant
  split
  · exact .pure _
  · exact .throw _

/-- Looking the declared type of a register up changes nothing. -/
theorem looks_typeOf (r : Routine) (x : Int32) : Looks (typeOf r x) := by
  unfold typeOf
  split
  · exact .pure _
  · exact .throw _

/-- Computing the number of an index register changes nothing. -/
theorem looks_following (base : Int32) (k : Nat) : Looks (following base k) := by
  unfold following
  split
  · exact .pure _
  · exact .throw _

/-- Reading the indices of an element changes nothing. -/
theorem looks_indices (base count : Int32) : Looks (indices base count) :=
  .mapM (fun _ => .bind (looks_following base _) looks_int) _

/-- Reading an item of the object in a register changes nothing. -/
theorem looks_readItem (kind : ObjectKind) (x : Int32) (i : Nat) : Looks (readItem kind x i) :=
  looks_read (.item kind (placeOf x) i)

/-- A test changes nothing. -/
theorem looks_testHolds (kind : TestKind) (x : Int32) : Looks (testHolds kind x) := by
  refine .bind (looks_reg x) fun v => ?_
  cases kind with
  | any => exact .bind .get fun _ => .pure _
  | _ => exact .pure _

/-- Searching the entries of a case table changes nothing. -/
theorem looks_caseTarget (r : Routine) (d : Int64) (entries : List Instruction) :
    Looks (caseTarget? r d entries) := by
  induction entries with
  | nil => exact .pure _
  | cons entry rest ih =>
    refine .bind (looks_constant r _) fun k => ?_
    split
    · exact .pure _
    · exact ih

/-- Choosing where a switch goes changes nothing. -/
theorem looks_select (r : Routine) (pc : Nat) (ins : Instruction) (v : Value) : Looks (select r pc ins v) := by
  unfold select
  dsimp only
  split
  · exact .throw (Failure.fault (.caseTable pc))
  · split
    · exact .pure _
    · exact .bind (looks_caseTarget r _ _) fun _ => .pure _

/-- Transfers of control change nothing: they look at a register and name an index. -/
theorem looks_dispatch (r : Routine) (pc : Nat) (ins : Instruction) : Looks (dispatch r pc ins) :=
  .bind (looks_reg _) (looks_select r pc ins)

end Step

end RegisterVM
