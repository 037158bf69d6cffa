import RegisterVM.Proofs.ArrayData

/-!
# Elements in packed words

An element of an array takes one data word, a complex element two. What is stored of two payload words is therefore what
the kind has room for (`ElementKind.keep`): reading an element back gives that much of what was written, and writing one
element leaves the others alone. Words that are all read as elements are told apart by their elements
(`words_eq_of_elementAt`).
-/

namespace RegisterVM

/-- As much of two payload words as an element of the kind has. -/
def ElementKind.keep (kind : ElementKind) (w : Words) : Words :=
  match kind with
  | .complex => w
  | _ => .single w.lo

variable {kind : ElementKind}

/-- Only what a kind keeps of some words is stored. -/
@[simp] theorem elementWords_keep (kind : ElementKind) (w : Words) :
    elementWords kind (kind.keep w) = elementWords kind w := by
  cases kind <;> rfl

/-- The words of an element are what its kind keeps. -/
theorem words_ofElement (kind : ElementKind) (w : Words) : (Value.ofElement kind w).words = kind.keep w := by
  cases kind <;> rfl

/-! ### Reading and writing -/

/-- **Elements packed one after the other are found one after the other.** -/
theorem elementAt_flatMap {ws : List Words} {n : Nat} {w : Words} (hw : ws[n]? = some w) :
    elementAt kind (ws.flatMap (elementWords kind)).toArray n = kind.keep w := by
  induction ws generalizing n with
  | nil => simp at hw
  | cons x ws ih =>
    cases n with
    | zero =>
      obtain rfl : x = w := by simpa using hw
      cases kind <;> rfl
    | succ n =>
      have hrest := ih (n := n) (by simpa using hw)
      cases kind with
      | complex =>
        rw [← hrest]
        simp [elementAt, elementWords, Nat.mul_add, Array.getD_eq_getD_getElem?]
      | int | float =>
        rw [← hrest]
        simp [elementAt, elementWords, Array.getD_eq_getD_getElem?]

/-- Reading a word after another has been stored, or the same. -/
theorem getD_setIfInBounds (words : Array UInt64) (i j : Nat) (x : UInt64) :
    (words.setIfInBounds i x).getD j 0 = if i = j ∧ i < words.size then x else words.getD j 0 := by
  rw [Array.getD_eq_getD_getElem?, Array.getD_eq_getD_getElem?, Array.getElem?_setIfInBounds]
  by_cases hij : i = j
  · subst hij
    by_cases hi : i < words.size <;> simp [hi]
  · rw [if_neg hij, if_neg fun h => hij h.1]

/-- An element that has been stored is read back. -/
theorem elementAt_setElementAt_self {words : Array UInt64} {n : Nat} (hn : (n + 1) * kind.words ≤ words.size)
    (w : Words) :
    elementAt kind (setElementAt kind words n w) n = kind.keep w := by
  cases kind with
  | complex =>
    change (n + 1) * 2 ≤ words.size at hn
    unfold elementAt setElementAt ElementKind.keep
    dsimp only
    rw [getD_setIfInBounds, if_neg (by omega), getD_setIfInBounds, if_pos (by omega), getD_setIfInBounds,
      Array.size_setIfInBounds, if_pos (by omega)]
  | int | float =>
    change (n + 1) * 1 ≤ words.size at hn
    unfold elementAt setElementAt ElementKind.keep
    dsimp only
    rw [getD_setIfInBounds, if_pos (by omega)]

/-- Other elements stay when one is stored. -/
theorem elementAt_setElementAt_of_ne {m n : Nat} (hmn : m ≠ n) (words : Array UInt64) (w : Words) :
    elementAt kind (setElementAt kind words n w) m = elementAt kind words m := by
  cases kind with
  | complex =>
    unfold elementAt setElementAt
    dsimp only
    simp only [getD_setIfInBounds]
    rw [if_neg (by omega), if_neg (by omega), if_neg (by omega), if_neg (by omega)]
  | int | float =>
    unfold elementAt setElementAt
    dsimp only
    rw [getD_setIfInBounds, if_neg (by omega)]

/-- Arrays of words are the same if all their words are. -/
theorem eq_of_getD {n : Nat} {ws vs : Array UInt64} (hws : ws.size = n) (hvs : vs.size = n)
    (h : ∀ i < n, ws.getD i 0 = vs.getD i 0) : ws = vs := by
  refine Array.ext (hws.trans hvs.symm) fun i hi hi' => ?_
  have hget := h i (hws ▸ hi)
  rwa [Array.getD_eq_getD_getElem?, Array.getD_eq_getD_getElem?, Array.getElem?_eq_getElem hi,
    Array.getElem?_eq_getElem hi'] at hget

/-- **Words are known by their elements.** -/
theorem words_eq_of_elementAt {n : Nat} {ws vs : Array UInt64} (hws : ws.size = n * kind.words)
    (hvs : vs.size = n * kind.words)
    (h : ∀ i < n, elementAt kind ws i = elementAt kind vs i) : ws = vs := by
  cases kind with
  | complex =>
    refine eq_of_getD hws hvs fun i hi => ?_
    change i < n * 2 at hi
    have helement := h (i / 2) (by omega)
    unfold elementAt at helement
    obtain ⟨hlo, hhi⟩ := Words.mk.inj helement
    rcases Nat.mod_two_eq_zero_or_one i with heven | hodd
    · rwa [show 2 * (i / 2) = i by omega] at hlo
    · rwa [show 2 * (i / 2) + 1 = i by omega] at hhi
  | int | float =>
    refine eq_of_getD hws hvs fun i hi => ?_
    have helement := h i (Nat.mul_one n ▸ hi)
    exact congrArg Words.lo helement

/-! ### Numbers -/

/-- A kind keeps all words of a number of that kind. -/
theorem Number.keep_words (n : Number) : n.kind.keep n.words = n.words := by
  cases n <;> rfl

/-- A number is read back from its words. -/
@[simp] theorem Number.ofWords_kind_words (n : Number) : ofWords n.kind n.words = n := by
  cases n <;> rfl

/-- A packed number is read back by its words. -/
theorem elementAt_packNumbers {ns : List Number} {i : Nat} {n : Number} (hn : ns[i]? = some n) (hkind : n.kind = kind) :
    elementAt kind (packNumbers kind ns) i = n.words := by
  have hwords : (ns.map Number.words)[i]? = some n.words := by simp [hn]
  have hpack : packNumbers kind ns = ((ns.map Number.words).flatMap (elementWords kind)).toArray := by
    rw [packNumbers, List.flatMap_map]
  rw [hpack, elementAt_flatMap hwords, ← hkind, n.keep_words]

/-! ### Arrays -/

namespace PlainArray

/-- A packed number is read back. -/
theorem number_packNumbers (e : Extents) {ns : List Number} {i : Nat} {n : Number} (hn : ns[i]? = some n)
    (hkind : n.kind = kind) : (PlainArray.mk e kind (packNumbers kind ns)).number i = n := by
  unfold number element
  dsimp only
  rw [elementAt_packNumbers hn hkind, ← hkind, Number.ofWords_kind_words]

/-- The array with the words of one element replaced. -/
def store (a : PlainArray) (n : Nat) (w : Words) : PlainArray := { a with words := setElementAt a.kind a.words n w }

variable {a : PlainArray} {m n : Nat}

/-- An element of an array that has been stored is read back. -/
theorem element_store_self (hn : (n + 1) * a.kind.words ≤ a.words.size) (w : Words) :
    (a.store n w).element n = a.kind.keep w :=
  elementAt_setElementAt_self hn w

/-- Other elements of the array stay. -/
theorem element_store_of_ne (hmn : m ≠ n) (w : Words) : (a.store n w).element m = a.element m :=
  elementAt_setElementAt_of_ne hmn a.words w

end PlainArray

end RegisterVM
