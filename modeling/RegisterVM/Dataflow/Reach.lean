/-!
# Reachability in a finite graph

A depth-first search over nodes `0 … n - 1` that marks what it visits. It ends because every step
either marks a node that was not marked or takes one entry off the list of nodes still to visit.
-/

namespace RegisterVM

/-- Marks everything that can be reached from `work` without passing through a marked node. -/
def explore (next : Nat → List Nat) (work : List Nat) (seen : Array Bool) : Array Bool :=
  match work with
  | [] => seen
  | v :: rest =>
    if h : v < seen.size then
      if seen[v] then explore next rest seen
      else explore next (next v ++ rest) (seen.set v true)
    else explore next rest seen
termination_by (seen.countP (fun marked => !marked), work.length)
decreasing_by
  · exact Prod.Lex.right _ (by simp)
  · rename_i hv
    apply Prod.Lex.left
    have hv' : seen[v] = false := by simpa using hv
    have hpos : 0 < seen.countP (fun marked => !marked) :=
      Array.countP_pos_iff.2 ⟨seen[v], Array.getElem_mem h, by simp [hv']⟩
    rw [Array.countP_set]
    simp only [hv', Bool.not_false, Bool.not_true, if_true, Bool.false_eq_true, if_false]
    omega
  · exact Prod.Lex.right _ (by simp)

/-- The nodes below `n` that can be reached from `starts` along `next`. -/
def reachable (n : Nat) (next : Nat → List Nat) (starts : List Nat) : Array Bool :=
  explore next starts (Array.replicate n false)

end RegisterVM
