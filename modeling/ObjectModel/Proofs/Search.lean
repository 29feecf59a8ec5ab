import Mathlib.Data.Set.Insert
import Mathlib.Logic.Relation

/-!
# Depth-first search

A search goes through a list of points. A point that was visited before is
passed over; one that was not is visited, and then all that comes next after
it, before the search goes on with the list (`Search`). Walks over a graph,
and the search for what belongs together, are of this kind.

* `Search.closed`: what follows on a visited point is visited;
* `Search.mem_iff`: a search that starts with nothing visited visits what can
  be reached, and nothing else;
* `remaining`: the number of points that are still to be visited, which
  bounds the depth of a search.
-/

namespace ObjectModel

universe u

variable {α : Type u}

/-- A search through a list, with what was visited before it and after it. The
    points `next a` come next after `a`. -/
inductive Search (next : α → List α) : Set α → List α → Set α → Prop
  | done {V : Set α} : Search next V [] V
  | seen {V W : Set α} {a : α} {l : List α} : a ∈ V → Search next V l W → Search next V (a :: l) W
  | visit {V U W : Set α} {a : α} {l : List α} :
    a ∉ V → Search next (insert a V) (next a) U → Search next U l W → Search next V (a :: l) W

namespace Search

variable {next : α → List α} {V U W : Set α} {a : α} {k l : List α}

/-- A search of two lists goes on with the second where the first ends. -/
theorem append (hk : Search next V k U) (hl : Search next U l W) : Search next V (k ++ l) W := by
  induction hk with
  | done => exact hl
  | seen ha _ ih => exact .seen ha (ih hl)
  | visit ha hn _ _ ih => exact .visit ha hn (ih hl)

theorem subset (h : Search next V l W) : V ⊆ W := by
  induction h with
  | done => exact subset_rfl
  | seen _ _ ih => exact ih
  | visit _ _ _ ihn ihl => exact (Set.subset_insert _ _).trans (ihn.trans ihl)

/-- A search passes over nothing in its list that it has not visited before. -/
theorem mem_of_mem (h : Search next V l W) (ha : a ∈ l) : a ∈ W := by
  induction h with
  | done => cases ha
  | seen hb hl ih =>
    rcases List.mem_cons.1 ha with rfl | ha
    · exact hl.subset hb
    · exact ih ha
  | visit _ hn hl _ ih =>
    rcases List.mem_cons.1 ha with rfl | ha
    · exact hl.subset (hn.subset (Set.mem_insert _ _))
    · exact ih ha

/-- What comes next after a point that a search visits is visited in the end.
    Points visited before may still lack some of it: those are the points that
    the search is about to come back to. -/
theorem closed (h : Search next V l W) (ha : a ∈ W) : a ∈ V ∨ ∀ b ∈ next a, b ∈ W := by
  induction h with
  | done => exact .inl ha
  | seen _ _ ih => exact ih ha
  | visit _ hn hl ihn ihl =>
    -- The point is visited with the rest of the list, or with what comes next
    -- after the first point, or is this point itself.
    rcases ihl ha with ha | ha
    · rcases ihn ha with ha | ha
      · rcases Set.mem_insert_iff.1 ha with rfl | ha
        · exact .inr fun b hb => hl.subset (hn.mem_of_mem hb)
        · exact .inl ha
      · exact .inr fun b hb => hl.subset (ha b hb)
    · exact .inr ha

/-- A search visits only what can be reached from its list. -/
theorem reached (h : Search next V l W) (ha : a ∈ W) :
    a ∈ V ∨ ∃ b ∈ l, Relation.ReflTransGen (fun x y => y ∈ next x) b a := by
  induction h with
  | done => exact .inl ha
  | seen _ _ ih =>
    exact (ih ha).imp_right fun ⟨b, hb, hba⟩ => ⟨b, List.mem_cons_of_mem _ hb, hba⟩
  | @visit V U W c l _ hn hl ihn ihl =>
    rcases ihl ha with ha | ⟨b, hb, hba⟩
    · rcases ihn ha with ha | ⟨b, hb, hba⟩
      · rcases Set.mem_insert_iff.1 ha with rfl | ha
        · exact .inr ⟨a, List.mem_cons_self, .refl⟩
        · exact .inl ha
      · exact .inr ⟨c, List.mem_cons_self, .head hb hba⟩
    · exact .inr ⟨b, List.mem_cons_of_mem _ hb, hba⟩

/-- A search that starts with nothing visited visits what can be reached. -/
theorem mem_iff (h : Search next ∅ l W) :
    a ∈ W ↔ ∃ b ∈ l, Relation.ReflTransGen (fun x y => y ∈ next x) b a := by
  constructor
  · intro ha
    exact (h.reached ha).resolve_left (Set.notMem_empty a)
  · rintro ⟨b, hb, hba⟩
    -- As nothing was visited before, no visited point lacks what follows on it.
    induction hba with
    | refl => exact h.mem_of_mem hb
    | tail _ hc ih => exact (h.closed ih).resolve_left (Set.notMem_empty _) _ hc

end Search

/-! ## How deep a search goes -/

variable [DecidableEq α] {V W all : List α} {a : α}

/-- The number of elements of `all` that are not in `V`. -/
def remaining (all V : List α) : Nat := all.countP (· ∉ V)

theorem remaining_cons :
    remaining (a :: all) V = remaining all V + if a ∈ V then 0 else 1 := by
  by_cases h : a ∈ V <;> simp [remaining, h]

theorem remaining_le (h : V ⊆ W) : remaining all W ≤ remaining all V :=
  List.countP_mono_left fun a _ ha => by
    simp only [decide_eq_true_eq] at ha ⊢
    exact fun hV => ha (h hV)

/-- Visiting a new element of `all` leaves fewer. -/
theorem remaining_lt (h : V ⊆ W) (hall : a ∈ all) (hV : a ∉ V) (hW : a ∈ W) :
    remaining all W < remaining all V := by
  induction all with
  | nil => cases hall
  | cons b all ih =>
    rw [remaining_cons, remaining_cons]
    rcases List.mem_cons.1 hall with rfl | hall
    · have : remaining all W ≤ remaining all V := remaining_le h
      rw [if_pos hW, if_neg hV]
      omega
    · -- The difference is in the rest; `b` itself adds no more after than before.
      have := ih hall
      by_cases hb : b ∈ V
      · rw [if_pos hb, if_pos (h hb)]
        omega
      · rw [if_neg hb]
        split <;> omega

theorem remaining_le_length : remaining all V ≤ all.length := List.countP_le_length

end ObjectModel
