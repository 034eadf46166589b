import Mathlib.Data.List.Nodup
import Mathlib.Data.Set.Insert
/-!
# Depth-first tours

A tour of a graph goes by a list of nodes to meet. A node that was seen is
passed over; any other is met, and what it leads to comes before the rest
of the list, in the order in which it is listed (`DepthFirst`). There may be
circles: nodes count as seen from the moment they are met. So none is met
twice (`DepthFirst.nodup`), however many ways lead to it.
-/

namespace DeviceTypes

variable {α : Type}

/-- A tour along `next` from the nodes listed meets these nodes, in this order, where
those of `seen` are passed over. -/
inductive DepthFirst (next : α → List α) : Set α → List α → List α → Prop
  /-- There is nothing to meet. -/
  | done {seen : Set α} : DepthFirst next seen [] []
  /-- The first node was seen. -/
  | skip {seen : Set α} {a : α} {as order : List α} : a ∈ seen →
      DepthFirst next seen as order → DepthFirst next seen (a :: as) order
  /-- The first node is met, and then all it leads to. -/
  | enter {seen : Set α} {a : α} {as order : List α} : a ∉ seen →
      DepthFirst next (insert a seen) (next a ++ as) order →
      DepthFirst next seen (a :: as) (a :: order)

namespace DepthFirst

variable {next next' : α → List α} {seen : Set α} {a : α} {as as' order order' : List α}

/-- **No node is met that was seen, and none is met twice.** -/
theorem nodup (h : DepthFirst next seen as order) : order.Nodup ∧ ∀ a ∈ order, a ∉ seen := by
  induction h with
  | done => exact ⟨List.nodup_nil, List.forall_mem_nil _⟩
  | skip _ _ ih => exact ih
  | @enter seen a _ order ha _ ih =>
    obtain ⟨hnodup, hnew⟩ := ih
    have hfresh : a ∉ order := fun hmem => hnew a hmem (Set.mem_insert a seen)
    refine ⟨List.nodup_cons.2 ⟨hfresh, hnodup⟩, List.forall_mem_cons.2 ⟨ha, fun b hb hseen => ?_⟩⟩
    exact hnew b hb (Set.mem_insert_of_mem a hseen)

/-- **One list after another**: what the first tour has met is seen in the second. -/
theorem append (h : DepthFirst next seen as order)
    (h' : DepthFirst next (seen ∪ {a | a ∈ order}) as' order') :
    DepthFirst next seen (as ++ as') (order ++ order') := by
  induction h with
  | @done seen =>
    have hseen : seen ∪ {a | a ∈ ([] : List α)} = seen := by simp
    rwa [hseen] at h'
  | skip ha _ ih => exact .skip ha (ih h')
  | @enter seen a as order ha _ ih =>
    have hseen : seen ∪ {b | b ∈ a :: order} = insert a seen ∪ {b | b ∈ order} := by
      ext b
      simp only [Set.mem_union, Set.mem_ofPred_eq, List.mem_cons, Set.mem_insert_iff]
      tauto
    rw [hseen] at h'
    have hrest := ih h'
    rw [List.append_assoc] at hrest
    exact .enter ha hrest

/-- A tour asks only of the nodes it meets where they lead. -/
theorem congr (h : DepthFirst next seen as order) (heq : ∀ a ∈ order, next a = next' a) :
    DepthFirst next' seen as order := by
  induction h with
  | done => exact .done
  | skip ha _ ih => exact .skip ha (ih heq)
  | enter ha _ ih =>
    rw [List.forall_mem_cons] at heq
    rw [heq.1] at ih
    exact .enter ha (ih heq.2)

/-- **There is one tour at most.** -/
theorem functional (h : DepthFirst next seen as order) (h' : DepthFirst next seen as order') :
    order = order' := by
  induction h generalizing order' with
  | done =>
    cases h'
    rfl
  | skip ha _ ih =>
    cases h' with
    | skip _ h' => exact ih h'
    | enter ha' _ => exact absurd ha ha'
  | enter ha _ ih =>
    cases h' with
    | skip ha' _ => exact absurd ha' ha
    | enter _ h' => rw [ih h']

end DepthFirst

/-- The elements up to the first that fails to have the property, and that one. -/
def upToFailure (P : α → Prop) [DecidablePred P] : List α → List α
  | [] => []
  | a :: as => if P a then a :: upToFailure P as else [a]

theorem upToFailure_of_forall {P : α → Prop} [DecidablePred P] {as : List α}
    (h : ∀ a ∈ as, P a) : upToFailure P as = as := by
  induction as with
  | nil => rfl
  | cons a as ih =>
    rw [List.forall_mem_cons] at h
    rw [upToFailure, if_pos h.1, ih h.2]

end DeviceTypes
