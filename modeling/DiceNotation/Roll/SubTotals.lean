/-!
# Sub-totals by node

A map from nodes to their values, kept in ascending order of the nodes.
-/
namespace DiceNotation

structure SubTotals where
  entries : List (Nat × Int64)
  ascending : entries.Pairwise fun entry later => entry.1 < later.1
  deriving DecidableEq, Repr

namespace SubTotals

/-- Puts a value at its place among entries in ascending order, instead of a former one. -/
def entered (node : Nat) (value : Int64) : List (Nat × Int64) → List (Nat × Int64)
  | [] => [(node, value)]
  | entry :: rest =>
    if entry.1 < node then entry :: entered node value rest
    else if entry.1 = node then (node, value) :: rest
    else (node, value) :: entry :: rest

theorem mem_of_mem_entered {node : Nat} {value : Int64} {entry : Nat × Int64}
    {entries : List (Nat × Int64)} (h : entry ∈ entered node value entries) :
    entry = (node, value) ∨ entry ∈ entries := by
  induction entries with
  | nil => exact .inl (List.mem_singleton.mp h)
  | cons first rest ih =>
    rw [entered] at h
    split at h
    · rcases List.mem_cons.mp h with rfl | hrest
      · exact .inr (.head _)
      · exact (ih hrest).imp_right (.tail _)
    · split at h
      · exact (List.mem_cons.mp h).imp_right (.tail _)
      · exact List.mem_cons.mp h

theorem ascending_entered (node : Nat) (value : Int64) {entries : List (Nat × Int64)}
    (h : entries.Pairwise fun entry later => entry.1 < later.1) :
    (entered node value entries).Pairwise fun entry later => entry.1 < later.1 := by
  induction entries with
  | nil => exact List.pairwise_singleton _ _
  | cons first rest ih =>
    obtain ⟨hfirst, hrest⟩ := List.pairwise_cons.mp h
    rw [entered]
    split
    · refine List.pairwise_cons.mpr ⟨fun later hlater => ?_, ih hrest⟩
      rcases mem_of_mem_entered hlater with rfl | hlater
      · assumption
      · exact hfirst later hlater
    · split
      · refine List.pairwise_cons.mpr ⟨fun later hlater => ?_, hrest⟩
        have := hfirst later hlater
        dsimp only
        omega
      · refine List.pairwise_cons.mpr ⟨fun later hlater => ?_, h⟩
        dsimp only
        rcases List.mem_cons.mp hlater with rfl | hlater
        · omega
        · have := hfirst later hlater
          omega

theorem lookup_cons_eq_ite (entry : Nat × Int64) (entries : List (Nat × Int64)) (node : Nat) :
    (entry :: entries).lookup node =
      if node = entry.1 then some entry.2 else entries.lookup node := by
  rw [List.lookup_cons]
  by_cases hnode : node = entry.1
  · simp [hnode]
  · rw [beq_false_of_ne hnode, if_neg hnode]

theorem lookup_entered (node other : Nat) (value : Int64) (entries : List (Nat × Int64)) :
    (entered node value entries).lookup other =
      if other = node then some value else entries.lookup other := by
  induction entries with
  | nil => exact lookup_cons_eq_ite (node, value) [] other
  | cons first rest ih =>
    rw [entered, lookup_cons_eq_ite first]
    split
    · next hlt =>
      rw [lookup_cons_eq_ite, ih]
      by_cases hother : other = first.1
      · rw [if_pos hother, if_pos hother, if_neg (by omega)]
      · rw [if_neg hother, if_neg hother]
    · split
      · next heq =>
        rw [lookup_cons_eq_ite, heq]
        by_cases hother : other = node
        · rw [if_pos hother, if_pos hother]
        · rw [if_neg hother, if_neg hother, if_neg hother]
      · rw [lookup_cons_eq_ite, lookup_cons_eq_ite]

instance : EmptyCollection SubTotals := ⟨⟨[], .nil⟩⟩

def insert (subTotals : SubTotals) (node : Nat) (value : Int64) : SubTotals :=
  ⟨entered node value subTotals.entries, ascending_entered node value subTotals.ascending⟩

def get? (subTotals : SubTotals) (node : Nat) : Option Int64 := subTotals.entries.lookup node

/-- The values with their nodes, in ascending order of the nodes. -/
def zipIdx (subTotals : SubTotals) : List (Int64 × Nat) := subTotals.entries.map Prod.swap

theorem get?_empty (node : Nat) : get? ∅ node = none := rfl

theorem get?_insert (subTotals : SubTotals) (node other : Nat) (value : Int64) :
    (subTotals.insert node value).get? other =
      if other = node then some value else subTotals.get? other :=
  lookup_entered node other value subTotals.entries

theorem get?_insert_self (subTotals : SubTotals) (node : Nat) (value : Int64) :
    (subTotals.insert node value).get? node = some value := by
  rw [get?_insert, if_pos rfl]

theorem get?_insert_of_ne (subTotals : SubTotals) {node other : Nat} (value : Int64)
    (h : other ≠ node) : (subTotals.insert node value).get? other = subTotals.get? other := by
  rw [get?_insert, if_neg h]

end SubTotals

end DiceNotation
