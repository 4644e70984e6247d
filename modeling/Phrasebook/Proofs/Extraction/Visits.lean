import Mathlib.Data.List.Basic
import Phrasebook.Extraction
import Phrasebook.Proofs.Template.Height

namespace Phrasebook
namespace Node

variable {options : ExtractOptions} {n c : Node} {d m : String}

/-- The search does not go below prints and translated blocks; a block around an attribute lookup
is not one of them. -/
def isClosed : Node → Bool
  | print _ => true
  | trans body _ _ _ _ => !body.isAccess
  | _ => false

theorem sizeOf_lt_of_mem_children (h : c ∈ n.children) : sizeOf c < sizeOf n := by
  cases n with
  | constant value => cases h
  | text data => cases h
  | print expr =>
    rw [List.mem_singleton.1 h, print.sizeOf_spec]
    omega
  | filter subject name arguments =>
    rw [filter.sizeOf_spec]
    rcases List.mem_cons.1 h with rfl | h
    · omega
    · have := List.sizeOf_lt_of_mem h
      omega
  | generic kind attributes children =>
    obtain ⟨⟨slot, o⟩, hm, rfl⟩ := List.mem_filterMap.1 h
    have := List.sizeOf_lt_of_mem hm
    rw [Prod.mk.sizeOf_spec, Option.some.sizeOf_spec] at this
    rw [generic.sizeOf_spec]
    omega
  | trans body domain vars count locale =>
    rw [trans.sizeOf_spec]
    rcases List.mem_cons.1 h with rfl | h
    · omega
    · obtain ⟨o, hm, rfl⟩ := List.mem_filterMap.1 h
      simp only [List.mem_cons, List.not_mem_nil, or_false] at hm
      rcases hm with rfl | rfl | rfl | rfl <;>
      · rw [Option.some.sizeOf_spec]
        omega

/-- The nodes that a search without a limit visits, with their depths, in preorder. -/
def visits (depth : Nat) (n : Node) : List (Nat × Node) :=
  (depth, n) :: if n.isClosed then [] else
    n.children.attach.flatMap fun ⟨c, _⟩ => visits (depth + 1) c
termination_by sizeOf n
decreasing_by exact sizeOf_lt_of_mem_children (by assumption)

theorem visits_eq (depth : Nat) (n : Node) :
    n.visits depth =
      (depth, n) :: if n.isClosed then [] else n.children.flatMap (visits (depth + 1)) := by
  rw [visits]
  simp

theorem visits_body (depth : Nat) (ns : List Node) :
    (body ns).visits depth = (depth, body ns) :: ns.flatMap (visits (depth + 1)) := by
  have hclosed : (body ns).isClosed = false := by
    rw [body, new, pushAll_generic]
    rfl
  rw [visits_eq, children_body, hclosed]
  rfl

theorem visits_module (n : Node) : (module n).visits 0 = (0, module n) :: n.visits 1 := by
  have hmodule : (module n).children = [n] := rfl
  rw [visits_eq, hmodule, List.flatMap_singleton]
  rfl

theorem visits_module_body {ns : List Node} (h : ∀ n ∈ ns, n.visits 2 = [(2, n)]) :
    (module (body ns)).visits 0 = (0, module (body ns)) :: (1, body ns) :: ns.map (2, ·) := by
  have hnodes : ns.flatMap (visits 2) = ns.map (2, ·) := by
    rw [← List.flatMap_pure_eq_map]
    exact List.flatMap_congr h
  rw [visits_module, visits_body, hnodes]

/-- What a node itself carries: a literal in a translated block, whose domain is a literal or the
default one, or a printed expression with a message and a domain. -/
inductive Resolves (options : ExtractOptions) : Node → String → String → Prop
  | block {body : Node} {vars count locale : Option Node} {m : String}
      (hm : body.literalText? = some m) :
      Resolves options (trans body none vars count locale) options.defaultDomain m
  | blockIn {body domain : Node} {vars count locale : Option Node} {d m : String}
      (hd : domain.literalText? = some d) (hm : body.literalText? = some m) :
      Resolves options (trans body (some domain) vars count locale) d m
  | print {expr : Node} {d m : String} (hd : expr.domain? options.defaultDomain = some d)
      (hm : expr.message? = some m) : Resolves options (print expr) d m

theorem literalText?_of_isAccess (h : n.isAccess = true) : n.literalText? = none := by
  cases n with
  | generic kind attributes children => rfl
  | _ => cases h

theorem entry?_eq_some_iff : n.entry? options = some (d, m) ↔ n.Resolves options d m := by
  constructor
  · intro h
    cases n with
    | print expr =>
      simp only [Option.bind_eq_bind, entry?, Option.bind_eq_some_iff, Option.pure_def,
        Option.some.injEq, Prod.mk.injEq] at h
      obtain ⟨_, hd, _, hm, rfl, rfl⟩ := h
      exact .print hd hm
    | trans body domain vars count locale =>
      cases domain with
      | none =>
        simp only [Option.bind_eq_bind, entry?, Option.bind_eq_some_iff, Option.pure_def,
          Option.ite_none_left_eq_some, Option.some.injEq, Prod.mk.injEq] at h
        obtain ⟨-, _, rfl, _, hm, rfl, rfl⟩ := h
        exact .block hm
      | some domain =>
        simp only [Option.bind_eq_bind, entry?, Option.bind_eq_some_iff, Option.pure_def,
          Option.ite_none_left_eq_some, Option.some.injEq, Prod.mk.injEq] at h
        obtain ⟨-, _, hd, _, hm, rfl, rfl⟩ := h
        exact .blockIn hd hm
    | _ => cases h
  · intro h
    cases h with
    | @block body _ _ _ _ hm =>
      cases ha : body.isAccess with
      | true => cases hm.symm.trans (literalText?_of_isAccess ha)
      | false => simp [ha, entry?, hm]
    | @blockIn body _ _ _ _ _ _ hd hm =>
      cases ha : body.isAccess with
      | true => cases hm.symm.trans (literalText?_of_isAccess ha)
      | false => simp [ha, entry?, hd, hm]
    | print hd hm => simp [hd, entry?, hm]

end Node
end Phrasebook
