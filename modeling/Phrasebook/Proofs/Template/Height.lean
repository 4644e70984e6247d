import Phrasebook.Template.Node

namespace Phrasebook

namespace Children

theorem nodes_push (cs : Children) (n : Node) : nodes (push cs n) = nodes cs ++ [n] :=
  List.filterMap_append

theorem nodes_pushAll (cs : Children) (ns : List Node) :
    nodes (pushAll cs ns) = nodes cs ++ ns := by
  induction ns generalizing cs with
  | nil => exact (List.append_nil _).symm
  | cons n ns ih =>
    have h := ih (push cs n)
    rw [nodes_push, List.append_assoc] at h
    exact h

end Children

namespace Node

mutual

def height : Node → Nat
  | trans body domain vars count locale =>
    max body.height (max (optionHeight domain) (max (optionHeight vars)
      (max (optionHeight count) (optionHeight locale)))) + 1
  | print expr => expr.height + 1
  | filter subject _ arguments => max subject.height (listHeight arguments) + 1
  | constant _ => 1
  | text _ => 1
  | generic _ _ cs => slotsHeight cs + 1

def optionHeight : Option Node → Nat
  | none => 0
  | some n => n.height

def listHeight : List Node → Nat
  | [] => 0
  | n :: ns => max n.height (listHeight ns)

def slotsHeight : List (Slot × Option Node) → Nat
  | [] => 0
  | (_, n) :: cs => max (optionHeight n) (slotsHeight cs)

end

theorem height_pos (n : Node) : 0 < n.height := by
  cases n <;> simp [height]

theorem height_le_listHeight {n : Node} {ns : List Node} (h : n ∈ ns) :
    n.height ≤ listHeight ns := by
  induction ns with
  | nil => cases h
  | cons m ns ih =>
    rw [listHeight]
    rcases List.mem_cons.1 h with rfl | h
    · exact Nat.le_max_left _ _
    · exact Nat.le_trans (ih h) (Nat.le_max_right _ _)

theorem height_le_slotsHeight {n : Node} {cs : Children} (h : n ∈ Children.nodes cs) :
    n.height ≤ slotsHeight cs := by
  induction cs with
  | nil => cases h
  | cons c cs ih =>
    obtain ⟨slot, o⟩ := c
    rw [slotsHeight]
    cases o with
    | none => exact Nat.le_trans (ih h) (Nat.le_max_right _ _)
    | some m =>
      rcases List.mem_cons.1 h with rfl | h
      · exact Nat.le_max_left _ _
      · exact Nat.le_trans (ih h) (Nat.le_max_right _ _)

theorem height_lt_of_mem_children {c n : Node} (h : c ∈ n.children) : c.height < n.height := by
  cases n with
  | constant value => cases h
  | text data => cases h
  | print expr =>
    rw [List.mem_singleton.1 h, height]
    omega
  | filter subject name arguments =>
    rw [height]
    rcases List.mem_cons.1 h with rfl | h
    · omega
    · have := height_le_listHeight h
      omega
  | generic kind attributes children =>
    have := height_le_slotsHeight h
    rw [height]
    omega
  | trans body domain vars count locale =>
    rw [height]
    rcases List.mem_cons.1 h with rfl | h
    · omega
    · obtain ⟨o, hm, rfl⟩ := List.mem_filterMap.1 h
      simp only [List.mem_cons, List.not_mem_nil, or_false] at hm
      rcases hm with rfl | rfl | rfl | rfl <;>
      · simp only [optionHeight]
        omega

theorem pushAll_generic (kind : NodeKind) (attributes : List (String × Scalar)) (cs : Children)
    (ns : List Node) :
    (generic kind attributes cs).pushAll ns = generic kind attributes (Children.pushAll cs ns) := by
  induction ns generalizing cs with
  | nil => rfl
  | cons n ns ih => exact ih (Children.push cs n)

theorem children_pushAll (kind : NodeKind) (attributes : List (String × Scalar)) (cs : Children)
    (ns : List Node) :
    ((generic kind attributes cs).pushAll ns).children = Children.nodes cs ++ ns := by
  rw [pushAll_generic, children, Children.nodes_pushAll]

theorem children_body (ns : List Node) : (body ns).children = ns :=
  children_pushAll .body [] [] ns

end Node
end Phrasebook
