import Mathlib.Data.List.Forall2

/-!
# Computations that may fail

What it means that a computation made of parts succeeds: all its parts do
(`bind_eq_ok`, `map_eq_ok`, `mapM_eq_ok`). Proofs about what succeeds take a
computation apart with these, one part at a time. `Results` tells what one
comes to, or fails with. Where a state is passed on, the parts run one after
the other (`run_bind_ok`).

A computation with a state leaves one also if it fails. `Ends` tells where it
comes to in either case, and is put together along the computation as well.
`EndsAs` tells in addition that another computation does the same. `Follows`
relates this state to the one before, and `Tracks` a run to one from another
state.
-/

namespace ObjectModel

universe u v w

variable {ε : Type u} {α β : Type v}

/-- A computation in two parts succeeds if both parts do. -/
theorem bind_eq_ok {x : Except ε α} {f : α → Except ε β} {b : β} :
    x >>= f = .ok b ↔ ∃ a, x = .ok a ∧ f a = .ok b := by
  cases x with
  | error e => simp [bind, Except.bind]
  | ok a => simp [bind, Except.bind]

/-- What follows a check goes on if the check succeeds. -/
theorem check_bind_eq_ok {x : Except ε PUnit} {f : PUnit → Except ε β} {b : β} :
    x >>= f = .ok b ↔ x = .ok ⟨⟩ ∧ f ⟨⟩ = .ok b :=
  bind_eq_ok.trans ⟨fun ⟨_, h⟩ => h, fun h => ⟨_, h⟩⟩

/-- The first part that fails is the one that is told. -/
theorem bind_eq_error {x : Except ε α} {f : α → Except ε β} {e : ε} :
    x >>= f = .error e ↔ x = .error e ∨ ∃ a, x = .ok a ∧ f a = .error e := by
  cases x with
  | error e' => simp [bind, Except.bind]
  | ok a => simp [bind, Except.bind]

theorem map_eq_ok {x : Except ε α} {f : α → β} {b : β} :
    f <$> x = .ok b ↔ ∃ a, x = .ok a ∧ f a = b := by
  cases x with
  | error e => simp [Functor.map, Except.map]
  | ok a => simp [Functor.map, Except.map]

@[simp]
theorem pure_eq_ok {a b : α} : (pure a : Except ε α) = .ok b ↔ a = b := by
  simp [pure, Except.pure]

/-- What is thrown is no success. -/
@[simp]
theorem throw_ne_ok {e : ε} {a : α} : (throw e : Except ε α) ≠ .ok a := by
  simp [throw, throwThe, MonadExceptOf.throw]

/-- Nothing follows what is thrown. -/
@[simp]
theorem throw_bind {e : ε} {f : α → Except ε β} : (throw e >>= f : Except ε β) = throw e :=
  rfl

/-- A list is worked through if each of its elements is. -/
theorem mapM_eq_ok {f : α → Except ε β} {l : List α} {bs : List β} :
    l.mapM f = .ok bs ↔ List.Forall₂ (fun a b => f a = .ok b) l bs := by
  induction l generalizing bs with
  | nil => rw [List.mapM_nil, pure_eq_ok, List.forall₂_nil_left_iff, eq_comm]
  | cons a l ih =>
    rw [List.mapM_cons, bind_eq_ok]
    constructor
    · rintro ⟨b, hb, h⟩
      obtain ⟨bs', hbs', h⟩ := bind_eq_ok.1 h
      obtain rfl := pure_eq_ok.1 h
      exact .cons hb (ih.1 hbs')
    · rintro (_ | ⟨hb, hbs⟩)
      exact ⟨_, hb, bind_eq_ok.2 ⟨_, ih.2 hbs, rfl⟩⟩

/-- Where each element has a result, the list has. -/
theorem exists_mapM {f : α → Except ε β} {l : List α} (h : ∀ a ∈ l, ∃ b, f a = .ok b) :
    ∃ bs, l.mapM f = .ok bs := by
  induction l with
  | nil => exact ⟨[], rfl⟩
  | cons a l ih =>
    rw [List.forall_mem_cons] at h
    obtain ⟨⟨b, hb⟩, hl⟩ := h
    obtain ⟨bs, hbs⟩ := ih hl
    exact ⟨b :: bs, mapM_eq_ok.2 (.cons hb (mapM_eq_ok.1 hbs))⟩

/-- Something is among the results for a list if it is the result for one of its
    elements. -/
theorem exists_mem_of_mapM {f : α → Except ε β} {l : List α} {bs : List β} {P : α → Prop}
    {Q : β → Prop} (h : l.mapM f = .ok bs) (hPQ : ∀ a ∈ l, ∀ b, f a = .ok b → (Q b ↔ P a)) :
    (∃ b ∈ bs, Q b) ↔ ∃ a ∈ l, P a := by
  induction mapM_eq_ok.1 h with
  | nil => simp
  | @cons a b l bs ha hl ih =>
    rw [List.forall_mem_cons] at hPQ
    rw [List.exists_mem_cons_iff, List.exists_mem_cons_iff, ih (mapM_eq_ok.2 hl) hPQ.2, hPQ.1 b ha]

/-- Each result is that of an element. -/
theorem exists_of_mem_mapM {f : α → Except ε β} {l : List α} {bs : List β} {b : β}
    (h : l.mapM f = .ok bs) (hb : b ∈ bs) : ∃ a ∈ l, f a = .ok b :=
  (exists_mem_of_mapM (Q := (· = b)) h fun a _ b' hb' => by rw [hb', Except.ok.injEq]).1
    ⟨b, hb, rfl⟩

/-- What each result has of its element, the results have of the list. -/
theorem map_of_mapM {γ : Type w} {f : α → Except ε β} {l : List α} {bs : List β} {p : α → γ}
    {q : β → γ} (h : l.mapM f = .ok bs) (hpq : ∀ a ∈ l, ∀ b, f a = .ok b → q b = p a) :
    bs.map q = l.map p := by
  induction mapM_eq_ok.1 h with
  | nil => rfl
  | @cons a b l bs ha hl ih =>
    rw [List.forall_mem_cons] at hpq
    rw [List.map_cons, List.map_cons, hpq.1 b ha, ih (mapM_eq_ok.2 hl) hpq.2]

/-- A loop ends where it begins if each of its steps does. -/
theorem foldlM_eq_self {γ : Type w} {f : β → γ → Except ε β} {l : List γ} {b : β}
    (h : ∀ a ∈ l, f b a = .ok b) : l.foldlM f b = .ok b := by
  induction l with
  | nil => rfl
  | cons a l ih =>
    rw [List.forall_mem_cons] at h
    rw [List.foldlM_cons, h.1]
    exact ih h.2

/-- A check of a list succeeds if it does for each of its elements. -/
theorem forM_eq_ok {f : α → Except ε PUnit} {l : List α} :
    l.forM f = .ok ⟨⟩ ↔ ∀ a ∈ l, f a = .ok ⟨⟩ := by
  induction l with
  | nil => simp [pure, Except.pure]
  | cons a l ih =>
    rw [List.forall_mem_cons, ← ih]
    exact check_bind_eq_ok

/-- A check of a list fails at one of its elements. -/
theorem exists_of_forM_eq_error {f : α → Except ε PUnit} {l : List α} {e : ε}
    (h : l.forM f = .error e) : ∃ a ∈ l, f a = .error e := by
  induction l with
  | nil => cases h
  | cons a l ih =>
    rcases bind_eq_error.1 h with ha | ⟨_, -, hl⟩
    · exact ⟨a, List.mem_cons_self, ha⟩
    · exact (ih hl).imp fun b hb => ⟨List.mem_cons_of_mem _ hb.1, hb.2⟩

/-- The computation comes to what `Q` holds of, or fails with what `E` holds of. -/
def Results (x : Except ε α) (Q : α → Prop) (E : ε → Prop) : Prop :=
  match x with
  | .ok a => Q a
  | .error e => E e

namespace Results

variable {x : Except ε α} {P Q : α → Prop} {Q' : β → Prop} {E E' : ε → Prop}
  {f : α → Except ε β}
  {l : List α} {a : α}

theorem pure (hQ : Q a) : Results (pure a : Except ε α) Q E := hQ

theorem of_error {e : ε} (h : Results x Q E) (hx : x = .error e) : E e := by
  rw [hx] at h
  exact h

/-- What cannot fail comes to something. -/
theorem exists_ok (h : Results x Q fun _ => False) : ∃ a, x = .ok a ∧ Q a := by
  cases x with
  | ok a => exact ⟨a, rfl, h⟩
  | error e => exact h.elim

theorem mono (h : Results x P E') (hQ : ∀ a, P a → Q a) (hE : ∀ e, E' e → E e) :
    Results x Q E := by
  cases x with
  | ok a => exact hQ a h
  | error e => exact hE e h

/-- The second part is only asked about for what the first may come to. -/
theorem bind (h : Results x P E) (hf : ∀ a, P a → Results (f a) Q' E) :
    Results (x >>= f) Q' E := by
  cases x with
  | ok a => exact hf a h
  | error e => exact h

/-- A list is worked through if each of its elements
    is, and the first failure is that of an element. -/
theorem mapM (hf : ∀ a ∈ l, Results (f a) (fun _ => Q a) E) :
    Results (l.mapM f) (fun _ => ∀ a ∈ l, Q a) E := by
  induction l with
  | nil =>
    rw [List.mapM_nil]
    exact .pure fun _ ha => absurd ha List.not_mem_nil
  | cons a l ih =>
    rw [List.mapM_cons]
    refine (hf a List.mem_cons_self).bind fun b ha => ?_
    refine (ih fun a ha => hf a (List.mem_cons_of_mem _ ha)).bind fun bs hl => ?_
    exact .pure (List.forall_mem_cons.2 ⟨ha, hl⟩)

/-- A list is folded over along `R`, keeping `I`. What each element comes to
    lasts to the end. -/
theorem foldlM {f : β → α → Except ε β} {R : β → β → Prop} {F : α → β → Prop} {I : β → Prop} {b : β}
    (hrefl : ∀ b, R b b) (htrans : ∀ b c d, R b c → R c d → R b d)
    (hF : ∀ a b c, R b c → F a b → F a c)
    (hf : ∀ a ∈ l, ∀ b, I b → Results (f b a) (fun c => F a c ∧ R b c ∧ I c) E) (hb : I b) :
    Results (l.foldlM f b) (fun c => (∀ a ∈ l, F a c) ∧ R b c ∧ I c) E := by
  induction l generalizing b with
  | nil =>
    rw [List.foldlM_nil]
    exact .pure ⟨fun _ ha => absurd ha List.not_mem_nil, hrefl b, hb⟩
  | cons a l ih =>
    rw [List.foldlM_cons]
    refine (hf a List.mem_cons_self b hb).bind fun c ⟨ha, hbc, hc⟩ => ?_
    refine (ih (fun a ha => hf a (List.mem_cons_of_mem _ ha)) hc).mono (fun d ⟨hl, hcd, hd⟩ => ?_)
      fun _ he => he
    exact ⟨List.forall_mem_cons.2 ⟨hF _ _ _ hcd ha, hl⟩, htrans _ _ _ hbc hcd, hd⟩

end Results

/-! ## With a state -/

variable {ε σ : Type u} {α β : Type u} {x y : ExceptT ε (StateM σ) α} {s t : σ}

/-- The second part runs in the state that the first leaves, unless that fails. -/
theorem run_bind_eq (x : ExceptT ε (StateM σ) α) (f : α → ExceptT ε (StateM σ) β) (s : σ) :
    (x >>= f).run s = match (x.run s).1 with
      | .ok a => (f a).run (x.run s).2
      | .error e => (.error e, (x.run s).2) := by
  rw [ExceptT.run_bind]
  change (match (x.run s).1 with
    | .ok a => (f a).run
    | .error e => pure (.error e) : StateM σ (Except ε β)) (x.run s).2 = _
  cases (x.run s).1 <;> rfl

theorem run_eq_iff {r : Except ε α} :
    x.run s = (r, t) ↔ (x.run s).1 = r ∧ (x.run s).2 = t := Prod.ext_iff

theorem exists_run_error_iff : (∃ e, x.run s = (.error e, t)) ↔
    (∃ e, (x.run s).1 = .error e) ∧ (x.run s).2 = t := by
  simp only [run_eq_iff, exists_and_right]

theorem exists_run_ok_iff {a : α} : (∃ t, x.run s = (.ok a, t)) ↔ (x.run s).1 = .ok a := by
  simp only [run_eq_iff, exists_and_left, exists_eq', and_true]

/-- What follows on a success goes on from the state that it leaves. -/
theorem run_bind_ok {f : α → ExceptT ε (StateM σ) β} {a : α} (h : x.run s = (.ok a, t)) :
    (x >>= f).run s = (f a).run t := by
  rw [run_bind_eq, h]

/-- Nothing follows on a failure. -/
theorem run_bind_error {f : α → ExceptT ε (StateM σ) β} {e : ε} (h : x.run s = (.error e, t)) :
    (x >>= f).run s = (.error e, t) := by
  rw [run_bind_eq, h]

/-- What succeeds has succeeded in each part. -/
theorem exists_run_bind_ok {f : α → ExceptT ε (StateM σ) β} {b : β}
    (h : (x >>= f).run s = (.ok b, t)) :
    ∃ a u, x.run s = (.ok a, u) ∧ (f a).run u = (.ok b, t) := by
  rcases hx : x.run s with ⟨e | a, u⟩
  · rw [run_bind_error hx] at h
    cases congrArg Prod.fst h
  · exact ⟨a, u, rfl, (run_bind_ok hx).symm.trans h⟩

/-- From the state `s`, the computation ends well in `Q`, or fails in `E`. -/
def Ends (x : ExceptT ε (StateM σ) α) (s : σ) (Q : α → σ → Prop) (E : σ → Prop) : Prop :=
  match (x.run s).1 with
  | .ok a => Q a (x.run s).2
  | .error _ => E (x.run s).2

/-- What holds of a value and a state holds of whatever state comes later. -/
def Lasting (R : σ → σ → Prop) (F : α → β → σ → Prop) : Prop :=
  ∀ a b s t, R s t → F a b s → F a b t

namespace Ends

variable {f : α → ExceptT ε (StateM σ) β} {P Q : α → σ → Prop} {Q' : β → σ → Prop}
  {E E' : σ → Prop} {I : σ → Prop} {a : α} {l : List α}

theorem of_run (h : x.run s = (.ok a, t)) (hQ : Q a t) : Ends x s Q E := by
  rw [Ends, h]
  exact hQ

theorem of_run_error {e : ε} (h : x.run s = (.error e, t)) (hE : E t) : Ends x s Q E := by
  rw [Ends, h]
  exact hE

theorem pure (hQ : Q a s) : Ends (pure a : ExceptT ε (StateM σ) α) s Q E := hQ

/-- Less may be told of how a computation ends. -/
theorem mono (h : Ends x s P E') (hQ : ∀ a t, P a t → Q a t) (hE : ∀ t, E' t → E t) :
    Ends x s Q E := by
  unfold Ends at *
  split at h
  · exact hQ _ _ h
  · exact hE _ h

/-- The second part is only asked about for the ends of the first. Each may fail. -/
theorem bind (h : Ends x s P E) (hf : ∀ a t, P a t → Ends (f a) t Q' E) :
    Ends (x >>= f) s Q' E := by
  have hrun := run_bind_eq x f s
  unfold Ends at *
  split at h <;> rename_i hx
  · rw [hx] at hrun
    simp only at hrun
    rw [hrun]
    exact hf _ _ h
  · rw [hx] at hrun
    simp only at hrun
    rw [hrun]
    exact h

/-- What is known to end well is passed over. -/
theorem after {f : α → ExceptT ε (StateM σ) β} (h : x.run s = (.ok a, t))
    (hf : Ends (f a) t Q' E) : Ends (x >>= f) s Q' E := by
  rw [Ends, run_bind_ok h]
  exact hf

theorem of_ok (h : Ends x s Q E) (hx : (x.run s).1 = .ok a) : Q a (x.run s).2 := by
  rw [Ends, hx] at h
  exact h

theorem of_error {e : ε} (h : Ends x s Q E) (hx : (x.run s).1 = .error e) : E (x.run s).2 := by
  rw [Ends, hx] at h
  exact h

/-- What holds in either case holds of the state. -/
theorem state (h : Ends x s (fun _ => I) I) : I (x.run s).2 := by
  unfold Ends at h
  split at h <;> exact h

/-- What cannot fail ends well. -/
theorem exists_ok (h : Ends x s Q fun _ => False) : ∃ a t, x.run s = (.ok a, t) ∧ Q a t := by
  unfold Ends at h
  split at h
  · rename_i a hx
    exact ⟨a, (x.run s).2, Prod.ext hx rfl, h⟩
  · exact h.elim

/-- A list is worked through in states that satisfy `I` and follow each other
    under `R`. What each element comes to lasts to the end. -/
theorem mapM {R : σ → σ → Prop} {F : α → β → σ → Prop} (hrefl : ∀ s, R s s)
    (htrans : ∀ s t u, R s t → R t u → R s u) (hF : Lasting R F)
    (hf : ∀ a ∈ l, ∀ s, I s → Ends (f a) s (fun b t => F a b t ∧ R s t ∧ I t) E) (hs : I s) :
    Ends (l.mapM f) s (fun bs t => List.Forall₂ (fun a b => F a b t) l bs ∧ R s t ∧ I t) E := by
  induction l generalizing s with
  | nil =>
    rw [List.mapM_nil]
    exact .pure ⟨.nil, hrefl s, hs⟩
  | cons a l ih =>
    rw [List.mapM_cons]
    refine (hf a List.mem_cons_self s hs).bind fun b t ⟨hb, hst, ht⟩ => ?_
    refine (ih (fun a ha => hf a (List.mem_cons_of_mem _ ha)) ht).bind fun bs u ⟨hbs, htu, hu⟩ => ?_
    exact .pure ⟨.cons (hF _ _ _ _ htu hb) hbs, htrans _ _ _ hst htu, hu⟩

end Ends

/-- The computation keeps `I` if it ends well, and fails in `E`. -/
def Keeps (I E : σ → Prop) (x : ExceptT ε (StateM σ) α) : Prop :=
  ∀ s, I s → Ends x s (fun _ => I) E

namespace Keeps

variable {I E : σ → Prop} {f : α → ExceptT ε (StateM σ) β} {l : List α}

theorem pure (a : α) : Keeps I E (pure a : ExceptT ε (StateM σ) α) := fun _ hs => hs

theorem bind (h : Keeps I E x) (hf : ∀ a, Keeps I E (f a)) : Keeps I E (x >>= f) :=
  fun s hs => (h s hs).bind fun a t ht => hf a t ht

/-- A list is worked through keeping what the work on each element keeps. -/
theorem mapM (hf : ∀ a ∈ l, Keeps I E (f a)) : Keeps I E (l.mapM f) := by
  induction l with
  | nil =>
    rw [List.mapM_nil]
    exact .pure []
  | cons a l ih =>
    rw [List.forall_mem_cons] at hf
    rw [List.mapM_cons]
    exact hf.1.bind fun b => (ih hf.2).bind fun bs => .pure (b :: bs)

theorem forM {f : α → ExceptT ε (StateM σ) PUnit} (hf : ∀ a ∈ l, Keeps I E (f a)) :
    Keeps I E (l.forM f) := by
  induction l with
  | nil => exact .pure _
  | cons a l ih =>
    rw [List.forall_mem_cons] at hf
    exact hf.1.bind fun _ => ih hf.2

end Keeps

/-- From the state `s`, `y` does what `x` does, which ends well in `Q`, or fails in `E`. -/
def EndsAs (x y : ExceptT ε (StateM σ) α) (s : σ) (Q : α → σ → Prop) (E : σ → Prop) : Prop :=
  y.run s = x.run s ∧ Ends x s Q E

namespace EndsAs

variable {f k : α → ExceptT ε (StateM σ) β} {P Q : α → σ → Prop} {Q' : β → σ → Prop}
  {E E' : σ → Prop} {a : α}

theorem refl (h : Ends x s Q E) : EndsAs x x s Q E := ⟨rfl, h⟩

theorem pure (hQ : Q a s) : EndsAs (pure a : ExceptT ε (StateM σ) α) (pure a) s Q E := .refl hQ

theorem mono (h : EndsAs x y s P E') (hQ : ∀ a t, P a t → Q a t) (hE : ∀ t, E' t → E t) :
    EndsAs x y s Q E :=
  ⟨h.1, h.2.mono hQ hE⟩

/-- Computations that agree part by part agree, where the second parts need to agree
    only after the end of the first ones. -/
theorem bind (h : EndsAs x y s P E) (hf : ∀ a t, P a t → EndsAs (f a) (k a) t Q' E) :
    EndsAs (x >>= f) (y >>= k) s Q' E := by
  refine ⟨?_, h.2.bind fun a t ha => (hf a t ha).2⟩
  rw [run_bind_eq, run_bind_eq, h.1]
  cases hx : (x.run s).1 with
  | ok a => exact (hf a _ (h.2.of_ok hx)).1
  | error e => rfl

theorem of_run_error {e : ε} (hx : x.run s = (.error e, t)) (hy : y.run s = (.error e, t))
    (hE : E t) : EndsAs x y s Q E :=
  ⟨hy.trans hx.symm, .of_run_error hx hE⟩

/-- What is known to end well is passed over. -/
theorem after (h : x.run s = (.ok a, t)) (hf : EndsAs (f a) (k a) t Q' E) :
    EndsAs (x >>= f) (x >>= k) s Q' E :=
  ⟨((run_bind_ok h).trans hf.1).trans (run_bind_ok h).symm, .after h hf.2⟩

end EndsAs

/-- In states that satisfy `I`, `y` does what `x` does, which keeps `I` if it ends well, and
    fails in `E`. -/
def Agrees (I E : σ → Prop) (x y : ExceptT ε (StateM σ) α) : Prop :=
  ∀ s, I s → EndsAs x y s (fun _ => I) E

namespace Agrees

variable {I E : σ → Prop} {f k : α → ExceptT ε (StateM σ) β} {l : List α}

theorem of_keeps (h : Keeps I E x) : Agrees I E x x := fun s hs => .refl (h s hs)

theorem keeps (h : Agrees I E x y) : Keeps I E x := fun s hs => (h s hs).2

theorem pure (a : α) : Agrees I E (pure a : ExceptT ε (StateM σ) α) (pure a) := .of_keeps (.pure a)

theorem bind (h : Agrees I E x y) (hf : ∀ a, Agrees I E (f a) (k a)) :
    Agrees I E (x >>= f) (y >>= k) := fun s hs => (h s hs).bind fun a t ht => hf a t ht

theorem mapM (hf : ∀ a ∈ l, Agrees I E (f a) (k a)) : Agrees I E (l.mapM f) (l.mapM k) := by
  induction l with
  | nil =>
    rw [List.mapM_nil, List.mapM_nil]
    exact .pure []
  | cons a l ih =>
    rw [List.forall_mem_cons] at hf
    rw [List.mapM_cons, List.mapM_cons]
    exact hf.1.bind fun b => (ih hf.2).bind fun bs => .pure (b :: bs)

end Agrees

/-- Wherever the computation ends, it has gone along `R`. -/
def Follows (R : σ → σ → Prop) (x : ExceptT ε (StateM σ) α) : Prop := ∀ s, R s (x.run s).2

namespace Follows

variable {R : σ → σ → Prop} {f : α → ExceptT ε (StateM σ) β} {l : List α}

/-- The states that two parts leave follow each other, so the last one follows the first. -/
theorem bind (htrans : ∀ s t u, R s t → R t u → R s u) (h : Follows R x)
    (hf : ∀ a, Follows R (f a)) : Follows R (x >>= f) := by
  intro s
  rw [run_bind_eq]
  split
  · exact htrans _ _ _ (h s) (hf _ _)
  · exact h s

/-- In a loop each state follows the one before, so the last one follows the first. -/
theorem forM {f : α → ExceptT ε (StateM σ) PUnit} (hrefl : ∀ s, R s s)
    (htrans : ∀ s t u, R s t → R t u → R s u) (hf : ∀ a ∈ l, Follows R (f a)) :
    Follows R (l.forM f) := by
  induction l with
  | nil => exact hrefl
  | cons a l ih =>
    have hrest := ih fun b hb => hf b (List.mem_cons_of_mem _ hb)
    exact (hf a List.mem_cons_self).bind htrans fun _ => hrest

end Follows

/-- Where the computation succeeds, it does so alike in a state related by `C`,
    unless it fails there in `E`. -/
def Tracks (C : σ → σ → Prop) (E : ε → Prop) (x : ExceptT ε (StateM σ) α) : Prop :=
  ∀ s s' a t, C s s' → x.run s = (.ok a, t) →
    (∃ t', C t t' ∧ x.run s' = (.ok a, t')) ∨ ∃ e t', E e ∧ x.run s' = (.error e, t')

namespace Tracks

variable {C : σ → σ → Prop} {E : ε → Prop} {f : α → ExceptT ε (StateM σ) β} {l : List α}

theorem pure (a : α) : Tracks C E (pure a : ExceptT ε (StateM σ) α) := by
  rintro s s' b t hs hrun
  cases hrun
  exact .inl ⟨s', hs, rfl⟩

theorem throw_bind (e : ε) : Tracks C E (throw e >>= f) := by
  intro s s' b t hs hrun
  obtain ⟨a, u, hthrow, -⟩ := exists_run_bind_ok hrun
  cases congrArg Prod.fst hthrow

theorem throw (e : ε) : Tracks C E (throw e : ExceptT ε (StateM σ) α) := by
  intro s s' b t hs hrun
  cases congrArg Prod.fst hrun

/-- The second part of a run starts in the related states that the first parts leave. -/
theorem bind (hx : Tracks C E x) (hf : ∀ a, Tracks C E (f a)) : Tracks C E (x >>= f) := by
  intro s s' b u hs hrun
  obtain ⟨a, t, hrunx, hrunf⟩ := exists_run_bind_ok hrun
  rcases hx s s' a t hs hrunx with ⟨t', ht, hrunx'⟩ | ⟨e, t', he, hrunx'⟩
  · rw [run_bind_ok hrunx']
    exact hf a t t' b u ht hrunf
  · exact .inr ⟨e, t', he, run_bind_error hrunx'⟩

theorem mapM (hf : ∀ a ∈ l, Tracks C E (f a)) : Tracks C E (l.mapM f) := by
  induction l with
  | nil =>
    rw [List.mapM_nil]
    exact .pure []
  | cons a l ih =>
    rw [List.mapM_cons]
    refine (hf a List.mem_cons_self).bind fun b => ?_
    exact (ih fun a ha => hf a (List.mem_cons_of_mem _ ha)).bind fun bs => .pure _

theorem forM {f : α → ExceptT ε (StateM σ) PUnit} (hf : ∀ a ∈ l, Tracks C E (f a)) :
    Tracks C E (l.forM f) := by
  induction l with
  | nil => exact .pure _
  | cons a l ih =>
    exact (hf a List.mem_cons_self).bind fun _ => ih fun a ha => hf a (List.mem_cons_of_mem _ ha)

end Tracks

/-- Where what was left is not come back to, a loop that fails in the state in
    which it starts does so at an element before which nothing changes. -/
theorem exists_run_forM_error {R : σ → σ → Prop} {f : α → ExceptT ε (StateM σ) PUnit} {l : List α}
    (hrefl : ∀ s, R s s) (htrans : ∀ s t u, R s t → R t u → R s u)
    (hanti : ∀ s t, R s t → R t s → s = t) (hf : ∀ a ∈ l, Follows R (f a)) :
    (∃ e, (l.forM f).run s = (.error e, s)) ↔ ∃ pre a post, l = pre ++ a :: post ∧
      (∀ b ∈ pre, (f b).run s = (.ok ⟨⟩, s)) ∧ ∃ e, (f a).run s = (.error e, s) := by
  induction l with
  | nil =>
    refine ⟨fun ⟨e, he⟩ => ?_, fun ⟨pre, a, post, hl, _⟩ => ?_⟩
    · cases congrArg Prod.fst he
    · exact absurd hl.symm (List.append_ne_nil_of_right_ne_nil _ (List.cons_ne_nil _ _))
  | cons a l ih =>
    have hrest := fun b hb => hf b (List.mem_cons_of_mem a hb)
    rw [List.forM_eq_forM, List.forM_cons]
    constructor
    · rintro ⟨e, he⟩
      cases ha : (f a).run s with
      | mk result t =>
        have hat : R s t := by simpa [ha] using hf a List.mem_cons_self s
        cases result with
        | error e' =>
          rw [run_bind_error ha] at he
          cases he
          exact ⟨[], a, l, rfl, fun _ hb => absurd hb List.not_mem_nil, e, ha⟩
        | ok _ =>
          -- The rest comes back to the start, so the state was not left.
          rw [run_bind_ok ha] at he
          have hback : R t s := by
            simpa [he] using Follows.forM (l := l) hrefl htrans hrest t
          obtain rfl := hanti s t hat hback
          obtain ⟨pre, b, post, rfl, hpre, hb⟩ := (ih hrest).1 ⟨e, he⟩
          exact ⟨a :: pre, b, post, rfl, List.forall_mem_cons.2 ⟨ha, hpre⟩, hb⟩
    · rintro ⟨_ | ⟨a', pre⟩, b, post, hl, hpre, hb⟩
      · obtain ⟨rfl, rfl⟩ := List.cons.inj hl
        exact hb.imp fun e he => run_bind_error he
      · obtain ⟨rfl, rfl⟩ := List.cons.inj hl
        rw [List.forall_mem_cons] at hpre
        obtain ⟨e, he⟩ := (ih hrest).2 ⟨pre, b, post, rfl, hpre.2, hb⟩
        exact ⟨e, (run_bind_ok hpre.1).trans he⟩

/-- Where the steps of a loop do not bear on each other, it succeeds if each step
    would at the start. -/
theorem exists_run_forM_ok {P : α → σ → Prop} {f : α → ExceptT ε (StateM σ) PUnit} {l : List α}
    (hl : l.Nodup) (hok : ∀ a s, (∃ t, (f a).run s = (.ok ⟨⟩, t)) ↔ P a s)
    (hkeep : ∀ a b s t, b ≠ a → (f a).run s = (.ok ⟨⟩, t) → (P b t ↔ P b s)) :
    (∃ t, (l.forM f).run s = (.ok ⟨⟩, t)) ↔ ∀ a ∈ l, P a s := by
  induction l generalizing s with
  | nil => exact ⟨fun _ _ ha => absurd ha List.not_mem_nil, fun _ => ⟨s, rfl⟩⟩
  | cons a l ih =>
    obtain ⟨hnew, hl⟩ := List.nodup_cons.1 hl
    rw [List.forM_eq_forM, List.forM_cons, List.forall_mem_cons]
    have hrest {t : σ} (ha : (f a).run s = (.ok ⟨⟩, t)) : (∀ b ∈ l, P b t) ↔ ∀ b ∈ l, P b s :=
      forall₂_congr fun b hb => hkeep a b s t (fun hba => hnew (hba ▸ hb)) ha
    constructor
    · rintro ⟨u, hrun⟩
      rcases ha : (f a).run s with ⟨e | _, t⟩
      · rw [run_bind_error ha] at hrun
        cases congrArg Prod.fst hrun
      · rw [run_bind_ok ha] at hrun
        exact ⟨(hok a s).1 ⟨t, ha⟩, (hrest ha).1 ((ih hl).1 ⟨u, hrun⟩)⟩
    · rintro ⟨ha, hl'⟩
      obtain ⟨t, ha⟩ := (hok a s).2 ha
      obtain ⟨u, hrun⟩ := (ih hl).2 ((hrest ha).2 hl')
      exact ⟨u, (run_bind_ok ha).trans hrun⟩

end ObjectModel
