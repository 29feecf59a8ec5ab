import ObjectModel.Proofs.Outcome
import ObjectModel.Proofs.Text.Markers

/-!
# Rendering a template

Each marker in the text of a template stands for its value, whatever else there is in the
values (`Template.simultaneous`). Rendering replaces one marker after the other, and so
also those that have come in with the value of an earlier one, or that such a value has
made up with the characters around it. As long as there are none (`Template.Undisturbed`)
markers might as well be replaced at once; for all values this holds only where there is
but one marker (`Template.render_simultaneous_iff`).
-/

namespace ObjectModel

namespace Template

/-- What the piece is replaced by. A marker without a value stays. -/
def Piece.fill (value : String → Option String) : Piece → List Char
  | .char c => [c]
  | .marker name => ((value name).map String.toList).getD (bracketed name)

section

variable (t : Template)

/-- The pieces of the text. -/
def parts : List Piece := pieces t.markers t.text.toList

/-- The text with all markers replaced at once. -/
def simultaneous : String := String.ofList (t.parts.flatMap (Piece.fill (t.values.lookup ·)))

/-- The values of the markers in `done`. -/
def valueOf (done : List String) (name : String) : Option String :=
  if name ∈ done then t.values.lookup name else none

/-- The text with the markers in `done` replaced at once. -/
def partly (done : List String) : List Char := t.parts.flatMap (Piece.fill (t.valueOf done))

/-- All markers have values. -/
def Filled : Prop := ∀ m ∈ t.markers, (t.values.lookup m).isSome = true

/-- Replaces a marker in what the text has become. -/
def renderStep (text marker : String) : Except TemplateError String :=
  match t.values.lookup marker with
  | some value => pure (substitute text marker value)
  | none => throw (.unfilledMarker t.name marker)

/-- When it is the turn of a marker, it stands just where it did before. -/
def Undisturbed : Prop := ∀ (i : Nat) (h : i < t.markers.length),
  occurrences (bracketed t.markers[i]) (t.partly (t.markers.take i)) =
    occurrences (bracketed t.markers[i]) t.text.toList

end

variable {t : Template} {m n : String} {v w x l d : List Char} {c : Char}
  {ps : List Piece} {value : String → Option String}

/-! ## Replacing one marker -/

/-- Replacing goes on behind what was skipped, and what is done stays. -/
theorem substituteFrom_eq (skip : Nat) : substituteFrom w v skip d l =
    d.reverse ++ substituteFrom w v 0 [] (l.drop skip) := by
  induction l generalizing skip d with
  | nil => cases skip <;> simp [substituteFrom]
  | cons c l ih =>
    cases skip with
    | succ skip => rw [substituteFrom, ih, List.drop_succ_cons]
    | zero =>
      rw [List.drop_zero, substituteFrom, substituteFrom]
      split
      · rw [ih, ih _ (d := v.reverse ++ [])]
        simp
      · rw [ih, ih _ (d := [c])]
        simp

/-- A marker in front is replaced. -/
theorem substitute_marker : substituteFrom (bracketed m) v 0 [] (bracketed m ++ l) =
    v ++ substituteFrom (bracketed m) v 0 [] l := by
  have hstarts : (bracketed m).isPrefixOf (bracketed m ++ l) = true :=
    List.isPrefixOf_iff_prefix.2 (List.prefix_append _ _)
  have hdrop : (m.toList ++ '>' :: l).drop ((bracketed m).length - 1) = l := by
    rw [List.append_cons, List.drop_left' (by simp [bracketed])]
  rw [bracketed_append] at hstarts ⊢
  rw [substituteFrom, if_pos hstarts, substituteFrom_eq, hdrop, List.append_nil,
    List.reverse_reverse]

theorem substitute_char (h : ¬ bracketed m <+: c :: l) :
    substituteFrom (bracketed m) v 0 [] (c :: l) =
      c :: substituteFrom (bracketed m) v 0 [] l := by
  rw [substituteFrom, if_neg fun hstarts => h (List.isPrefixOf_iff_prefix.1 hstarts),
    substituteFrom_eq]
  rfl

/-- Where no marker starts, all is kept. -/
theorem substitute_append
    (h : occurrences (bracketed m) (x ++ l) = occurrences (bracketed m) l) :
    substituteFrom (bracketed m) v 0 [] (x ++ l) =
      x ++ substituteFrom (bracketed m) v 0 [] l := by
  induction x with
  | nil => rfl
  | cons c x ih =>
    have hle := occurrences_le_append (w := bracketed m) (l := l) x
    rw [List.cons_append, occurrences_cons] at h
    rw [List.cons_append, substitute_char, ih, List.cons_append]
    · omega
    · intro hstarts
      rw [if_pos hstarts] at h
      omega

/-! ## Replacing markers in turn -/

theorem fill_of_value {a : String} (h : value m = some a) :
    Piece.fill value (.marker m) = a.toList := by
  rw [Piece.fill, h]
  rfl

theorem fill_of_none (h : value m = none) : Piece.fill value (.marker m) = bracketed m := by
  rw [Piece.fill, h]
  rfl

theorem fill_chars : (x.map Piece.char).flatMap (Piece.fill value) = x := by
  rw [List.flatMap_map]
  exact List.flatMap_singleton' x

theorem fill_none : Piece.fill (fun _ => none) = Piece.source := by
  funext p
  cases p <;> rfl

/-- What stands for a marker in the pieces stands there in the text. -/
theorem countP_le_occurrences (hm : Plain m) :
    ps.countP (fun p => p.fill value = bracketed m) ≤
      occurrences (bracketed m) (ps.flatMap (Piece.fill value)) := by
  induction ps with
  | nil => exact Nat.zero_le _
  | cons p ps ih =>
    rw [List.countP_cons, List.flatMap_cons]
    split
    · rename_i hp
      rw [of_decide_eq_true hp, occurrences_bracketed hm hm, if_pos rfl]
      exact Nat.succ_le_succ ih
    · exact ih.trans (occurrences_le_append _)

theorem count_le_occurrences (hm : Plain m) (hvalue : value m = none) :
    ps.count (.marker m) ≤ occurrences (bracketed m) (ps.flatMap (Piece.fill value)) := by
  refine (List.countP_mono_left fun p _ hp => ?_).trans (countP_le_occurrences hm)
  rw [eq_of_beq hp, fill_of_none hvalue, decide_eq_true rfl]

/-- If a marker stands nowhere but where it is a piece, replacing it is the same as
    giving it a value. -/
theorem substitute_fill (hm : Plain m) (hvalue : value m = none) (a : String)
    (h : occurrences (bracketed m) (ps.flatMap (Piece.fill value)) = ps.count (.marker m)) :
    substituteFrom (bracketed m) a.toList 0 [] (ps.flatMap (Piece.fill value)) =
      ps.flatMap (Piece.fill fun n => if n = m then some a else value n) := by
  induction ps with
  | nil => rfl
  | cons p ps ih =>
    have hle : ps.count (.marker m) ≤
        occurrences (bracketed m) (ps.flatMap (Piece.fill value)) := count_le_occurrences hm hvalue
    rw [List.flatMap_cons, List.count_cons] at h
    rw [List.flatMap_cons, List.flatMap_cons]
    by_cases hp : p = .marker m
    · subst hp
      rw [fill_of_none hvalue, occurrences_bracketed hm hm] at h
      rw [fill_of_none hvalue, substitute_marker, fill_of_value (if_pos rfl), ih]
      simpa using h
    · have hsame : p.fill (fun n => if n = m then some a else value n) = p.fill value := by
        cases p with
        | char => rfl
        | marker n =>
          have hn : n ≠ m := fun hn => hp (hn ▸ rfl)
          simp only [Piece.fill, if_neg hn]
      rw [if_neg (by simpa using hp), Nat.add_zero] at h
      -- What is put in for another piece brings the marker in nowhere, so it is kept.
      have hrest := occurrences_le_append (w := bracketed m) (l := ps.flatMap (Piece.fill value))
        (p.fill value)
      rw [hsame, substitute_append (by omega), ih (by omega)]

theorem toList_brackets (m : String) : ("<" ++ m ++ ">").toList = bracketed m := by
  rw [String.toList_append, String.toList_append, bracketed, List.append_assoc]
  rfl

theorem substitute_ofList (l : List Char) (m a : String) :
    substitute (String.ofList l) m a =
      String.ofList (substituteFrom (bracketed m) a.toList 0 [] l) := by
  rw [substitute, toList_brackets, String.toList_ofList]

theorem plain_of_mem (h : m ∈ t.markers) : Plain m := (mem_markers.1 h).1.plain

/-- No marker has a value yet. -/
theorem partly_nil (t : Template) : t.partly [] = t.text.toList := by
  have hnone : t.valueOf [] = fun _ => none := funext fun _ => if_neg List.not_mem_nil
  rw [partly, hnone, fill_none, parts, source_pieces fun _ => plain_of_mem]

/-- The step for a marker that stands just where it did before. -/
theorem renderStep_partly {before : List String} {a : String} (hm : m ∈ t.markers)
    (hbefore : m ∉ before) (ha : t.values.lookup m = some a)
    (h : occurrences (bracketed m) (t.partly before) =
      occurrences (bracketed m) t.text.toList) :
    t.renderStep (String.ofList (t.partly before)) m =
      .ok (String.ofList (t.partly (before ++ [m]))) := by
  rw [renderStep, ha]
  refine congrArg Except.ok ?_
  rw [← count_pieces (fun _ => plain_of_mem) hm (t.text.toList)] at h
  rw [substitute_ofList, partly, substitute_fill (plain_of_mem hm) (if_neg hbefore) a h, partly]
  congr 2
  funext p
  cases p with
  | char => rfl
  | marker n =>
    by_cases hn : n = m
    · subst hn
      simp [Piece.fill, valueOf, ha]
    · simp [Piece.fill, valueOf, hn]

/-- Each marker has one turn. -/
theorem not_mem_take {i : Nat} (hi : i < t.markers.length) :
    t.markers[i] ∉ t.markers.take i := by
  rw [List.mem_take_iff_getElem]
  rintro ⟨j, hj, heq⟩
  have := (nodup_markers t).getElem_inj_iff.1 heq
  omega

/-- The invariant of rendering, over the markers that had their turn. -/
theorem foldlM_take (hfilled : t.Filled) (h : t.Undisturbed) {i : Nat}
    (hi : i ≤ t.markers.length) :
    (t.markers.take i).foldlM t.renderStep t.text =
      .ok (String.ofList (t.partly (t.markers.take i))) := by
  induction i with
  | zero =>
    rw [List.take_zero, partly_nil, String.ofList_toList]
    rfl
  | succ i ih =>
    have hmem : t.markers[i] ∈ t.markers := List.getElem_mem hi
    obtain ⟨a, ha⟩ := Option.isSome_iff_exists.1 (hfilled _ hmem)
    have hstep := renderStep_partly hmem (not_mem_take hi) ha (h i hi)
    rw [← List.take_append_getElem hi, List.foldlM_append, ih (Nat.le_of_succ_le hi), ← hstep]
    simp only [List.foldlM_cons, List.foldlM_nil, bind_pure]
    rfl

/-- After all markers had their turn. -/
theorem simultaneous_eq (t : Template) : t.simultaneous = String.ofList (t.partly t.markers) := by
  refine congrArg String.ofList (List.flatMap_congr fun p hp => ?_)
  cases p with
  | char => rfl
  | marker n =>
    have hn : n ∈ t.markers := mem_of_marker_mem_pieces (fun _ => plain_of_mem) hp
    rw [Piece.fill, Piece.fill, valueOf, if_pos hn]

/-- Without disturbance, rendering replaces all markers at once. -/
theorem render_of_undisturbed (hfilled : t.Filled) (h : t.Undisturbed) :
    t.render = .ok t.simultaneous := by
  have hrender := foldlM_take hfilled h (Nat.le_refl _)
  rw [List.take_length] at hrender
  rw [simultaneous_eq]
  exact hrender

/-- Where brackets open nothing but markers, the markers that are left are all there is. -/
theorem occurrences_fill (hm : Plain m) (hnames : ∀ n, .marker n ∈ ps → Plain n)
    (hchars : .char '<' ∉ ps) (hvalue : value m = none)
    (hvalues : ∀ n a, value n = some a → '<' ∉ a.toList) :
    occurrences (bracketed m) (ps.flatMap (Piece.fill value)) = ps.count (.marker m) := by
  -- A value has no bracket, so nothing is made where a value and the text around it meet.
  induction ps with
  | nil => rfl
  | cons p ps ih =>
    rw [List.mem_cons, not_or] at hchars
    have ih := ih (fun n hn => hnames n (List.mem_cons_of_mem _ hn)) hchars.2
    rw [List.flatMap_cons, List.count_cons]
    cases p with
    | char c =>
      have hc : '<' ∉ Piece.fill value (.char c) := by
        rw [Piece.fill, List.mem_singleton]
        exact fun h => hchars.1 (h ▸ rfl)
      rw [occurrences_append_of_not_mem hc, ih]
      simp
    | marker n =>
      rcases hn : value n with _ | a
      · rw [fill_of_none hn, occurrences_bracketed hm (hnames n List.mem_cons_self), ih]
        simp
      · have hne : n ≠ m := by
          rintro rfl
          rw [hvalue] at hn
          cases hn
        rw [fill_of_value hn, occurrences_append_of_not_mem (hvalues n a hn), ih]
        simp [hne]

/-- Nothing is disturbed where brackets open nothing but the markers of the template. -/
theorem undisturbed_of_plain (hchars : .char '<' ∉ t.parts)
    (hvalues : ∀ e ∈ t.values, '<' ∉ e.2.toList) : t.Undisturbed := by
  intro i hi
  have hm : t.markers[i] ∈ t.markers := List.getElem_mem hi
  have hnames : ∀ n, .marker n ∈ t.parts → Plain n := fun n hn =>
    plain_of_mem (mem_of_marker_mem_pieces (fun _ => plain_of_mem) hn)
  have hvalue : ∀ n a, t.valueOf (t.markers.take i) n = some a → '<' ∉ a.toList := by
    intro n a ha
    rw [valueOf, Option.ite_none_right_eq_some] at ha
    obtain ⟨pre, post, hsplit, -⟩ := List.lookup_eq_some_iff.1 ha.2
    exact hvalues (n, a) (hsplit ▸ List.mem_append_right _ List.mem_cons_self)
  rw [partly, occurrences_fill (plain_of_mem hm) hnames hchars (if_neg (not_mem_take hi)) hvalue,
    parts, count_pieces (fun _ => plain_of_mem) hm]

/-! ## Filling all markers -/

/-- Markers can be replaced one after the other if all have values. -/
theorem exists_foldlM_renderStep {l : List String} {text : String} :
    (∃ s, l.foldlM t.renderStep text = .ok s) ↔ ∀ m ∈ l, (t.values.lookup m).isSome = true := by
  induction l generalizing text with
  | nil => simp
  | cons m l ih =>
    rw [List.foldlM_cons, List.forall_mem_cons, renderStep]
    cases t.values.lookup m with
    | none => simp
    | some a => simpa using @ih (substitute text m a)

theorem exists_render_iff : (∃ s, t.render = .ok s) ↔ t.Filled := exists_foldlM_renderStep

theorem fill_eq_ok {t' : Template} {a : String} : t.fill m a = .ok t' ↔
    m ∈ t.markers ∧ { t with values := (m, a) :: t.values } = t' := by
  rw [fill]
  split <;> simp [*]

/-- Several values are taken if each is for a marker. -/
theorem foldlM_fill_eq_ok {t' : Template} {values : List (String × String)} :
    values.foldlM (fun t e => t.fill e.1 e.2) t = .ok t' ↔
      (∀ e ∈ values, e.1 ∈ t.markers) ∧ { t with values := values.reverse ++ t.values } = t' := by
  induction values generalizing t with
  | nil => simp
  | cons e values ih =>
    simp only [List.foldlM_cons, bind_eq_ok, fill_eq_ok, List.forall_mem_cons, List.reverse_cons,
      List.append_assoc, List.singleton_append]
    constructor
    · rintro ⟨_, ⟨he, rfl⟩, h⟩
      obtain ⟨hvalues, h⟩ := ih.1 h
      exact ⟨⟨he, hvalues⟩, h⟩
    · rintro ⟨⟨he, hvalues⟩, h⟩
      exact ⟨_, ⟨he, rfl⟩, ih.2 ⟨hvalues, h⟩⟩

/-- A template is rendered with all its values at once if they are for its markers. -/
theorem fillAll_eq {values : List (String × String)} (h : ∀ e ∈ values, e.1 ∈ t.markers) :
    t.fillAll values = { t with values := values.reverse ++ t.values }.render := by
  rw [fillAll, foldlM_fill_eq_ok.2 ⟨h, rfl⟩]
  rfl

/-- Values for just the markers are what a template takes. -/
theorem exists_fillAll {values : List (String × String)}
    (h : ∀ m, m ∈ values.map Prod.fst ↔ m ∈ t.markers) : ∃ s, t.fillAll values = .ok s := by
  rw [fillAll_eq fun e he => (h e.1).1 (List.mem_map_of_mem he), exists_render_iff]
  intro m hm
  obtain ⟨e, he, rfl⟩ := List.mem_map.1 ((h m).2 hm)
  rw [List.lookup_isSome_iff]
  exact ⟨e, List.mem_append_left _ (List.mem_reverse.2 he), beq_self_eq_true _⟩

/-! ## More than one marker -/

/-- To replace one marker is to fill it and leave the others. -/
theorem substituteFrom_eq_fill (hm : Plain m) (a : String) (l : List Char) :
    substituteFrom (bracketed m) a.toList 0 [] l =
      (pieces [m] l).flatMap (Piece.fill fun n => if n = m then some a else none) := by
  have hnames : ∀ n ∈ [m], Plain n := by simpa using hm
  have hsource := source_pieces hnames l
  have hcount := count_pieces hnames (List.mem_singleton_self m) l
  rw [← fill_none] at hsource
  have hfill : substituteFrom (bracketed m) a.toList 0 []
      ((pieces [m] l).flatMap (Piece.fill fun _ => none)) =
        (pieces [m] l).flatMap (Piece.fill fun n => if n = m then some a else none) :=
    substitute_fill hm rfl a (by rw [hsource, hcount])
  rw [← hfill, hsource]

/-- A marker may be replaced by itself. -/
theorem substitute_self (hm : Plain m) (text : String) :
    substitute text m ("<" ++ m ++ ">") = text := by
  have hsource : Piece.fill (fun n => if n = m then some ("<" ++ m ++ ">") else none) =
      Piece.source := by
    funext p
    cases p with
    | char => rfl
    | marker n =>
      by_cases hn : n = m
      · rw [fill_of_value (if_pos hn), toList_brackets, hn]
        rfl
      · exact fill_of_none (if_neg hn)
  have hself := substituteFrom_eq_fill hm ("<" ++ m ++ ">") text.toList
  rw [hsource, source_pieces (by simpa using hm), toList_brackets] at hself
  rw [substitute, toList_brackets, hself, String.ofList_toList]

/-- A marker with an empty value and one without differ by its length. -/
theorem length_fill {value' : String → Option String} (hm : value m = some "")
    (hm' : value' m = none)
    (hsame : ∀ n, n ≠ m → Piece.fill value' (.marker n) = Piece.fill value (.marker n)) :
    (ps.flatMap (Piece.fill value')).length = (ps.flatMap (Piece.fill value)).length +
      ps.count (.marker m) * (bracketed m).length := by
  induction ps with
  | nil => simp
  | cons p ps ih =>
    rw [List.flatMap_cons, List.flatMap_cons, List.length_append, List.length_append, ih,
      List.count_cons]
    by_cases hp : p = .marker m
    · subst hp
      rw [fill_of_value hm, fill_of_none hm', String.toList_empty, List.length_nil,
        beq_self_eq_true, if_pos rfl, Nat.add_one_mul]
      omega
    · have hfill : p.fill value' = p.fill value := by
        cases p with
        | char => rfl
        | marker n => exact hsame n fun hn => hp (hn ▸ rfl)
      rw [hfill, if_neg (by simpa using hp), Nat.add_zero, Nat.add_assoc]

/-- A marker that is taken out shortens the text by its length, each time that it occurs. -/
theorem length_substituteFrom (hm : Plain m) (l : List Char) :
    (substituteFrom (bracketed m) [] 0 [] l).length +
      occurrences (bracketed m) l * (bracketed m).length = l.length := by
  have hnames : ∀ n ∈ [m], Plain n := by simpa using hm
  have hlength : ((pieces [m] l).flatMap (Piece.fill fun _ => none)).length =
      ((pieces [m] l).flatMap (Piece.fill fun n => if n = m then some "" else none)).length +
        (pieces [m] l).count (.marker m) * (bracketed m).length :=
    length_fill (if_pos rfl) rfl fun n hn => by rw [fill_of_none rfl, fill_of_none (if_neg hn)]
  rw [fill_none, source_pieces hnames, count_pieces hnames (List.mem_singleton_self m),
    ← substituteFrom_eq_fill hm] at hlength
  exact hlength.symm

/-- A marker stands for itself, and for any other whose value it is. -/
theorem count_add_count_le (hne : m ≠ n) (hm : value m = some ("<" ++ n ++ ">"))
    (hn : value n = none) : ps.count (.marker n) + ps.count (.marker m) ≤
      ps.countP (fun p => p.fill value = bracketed n) := by
  induction ps with
  | nil => exact Nat.le_refl _
  | cons p ps ih =>
    rw [List.count_cons, List.count_cons, List.countP_cons]
    -- The marker `n` is left as it is, and `m` is filled with what looks the same.
    by_cases hpn : p = .marker n
    · subst hpn
      have hmn : ¬ Piece.marker n = .marker m := fun h => hne (Piece.marker.inj h).symm
      simp only [fill_of_none hn, beq_self_eq_true, if_true, decide_true, beq_iff_eq, if_neg hmn]
      omega
    · by_cases hpm : p = .marker m
      · subst hpm
        simp only [fill_of_value hm, toList_brackets, beq_self_eq_true, if_true, decide_true,
          beq_iff_eq, if_neg hpn]
        omega
      · simp only [beq_iff_eq, if_neg hpn, if_neg hpm]
        omega

/-- A template filled so that the value of `m` is the marker `n`, which is dropped itself.
    Other markers stay. -/
def disturbing (t : Template) (m n : String) : Template :=
  { t with values := t.markers.map fun name => (name,
      if name = m then "<" ++ n ++ ">" else if name = n then "" else "<" ++ name ++ ">") }

/-- The first of the two markers stands for the second, and the second for nothing. -/
theorem lookup_disturbing {name : String} (h : name ∈ t.markers) :
    (t.disturbing m n).values.lookup name = some
      (if name = m then "<" ++ n ++ ">" else if name = n then "" else "<" ++ name ++ ">") :=
  List.lookup_graph _ h

theorem filled_disturbing (t : Template) (m n : String) : (t.disturbing m n).Filled := by
  intro name hname
  exact Option.isSome_of_eq_some (lookup_disturbing (t := t) hname)

/-- What is rendered lacks the markers that have come in, too. -/
theorem render_disturbing {rest : List String} (h : t.markers = m :: n :: rest) :
    (t.disturbing m n).render = .ok (String.ofList
      (substituteFrom (bracketed n) [] 0 [] ((t.disturbing m n).partly [m]))) := by
  have hnodup := nodup_markers t
  have hm : m ∈ t.markers := by simp [h]
  have hn : n ∈ t.markers := by simp [h]
  rw [h, List.nodup_cons, List.nodup_cons] at hnodup
  obtain ⟨hmn, hnrest, -⟩ := hnodup
  rw [List.mem_cons, not_or] at hmn
  -- The first step puts the second marker where the first was, the second takes it out as well,
  -- and the rest change nothing.
  have hfirst : (t.disturbing m n).renderStep t.text m =
      .ok (String.ofList ((t.disturbing m n).partly [m])) := by
    have hstep : (t.disturbing m n).renderStep (String.ofList ((t.disturbing m n).partly [])) m =
        .ok (String.ofList ((t.disturbing m n).partly ([] ++ [m]))) :=
      renderStep_partly hm List.not_mem_nil (lookup_disturbing hm) (by rw [partly_nil])
    rwa [partly_nil, String.ofList_toList] at hstep
  have hsecond (text : String) :
      (t.disturbing m n).renderStep text n = .ok (substitute text n "") := by
    rw [renderStep, lookup_disturbing hn, if_neg (Ne.symm hmn.1), if_pos rfl]
    rfl
  have hrest (text : String) : rest.foldlM (t.disturbing m n).renderStep text = .ok text := by
    refine foldlM_eq_self fun name hname => ?_
    have hmem : name ∈ t.markers := by simp [h, hname]
    have hnames : name ≠ m ∧ name ≠ n :=
      ⟨fun heq => hmn.2 (heq ▸ hname), fun heq => hnrest (heq ▸ hname)⟩
    rw [renderStep, lookup_disturbing hmem, if_neg hnames.1, if_neg hnames.2]
    exact congrArg Except.ok (substitute_self (plain_of_mem hmem) text)
  have hmarkers : (t.disturbing m n).markers = m :: n :: rest := h
  have hrender : (t.disturbing m n).render =
    (m :: n :: rest).foldlM (t.disturbing m n).renderStep t.text := by rw [← hmarkers]; rfl
  rw [hrender, List.foldlM_cons, hfirst]
  exact (bind_eq_ok.2 ⟨_, hsecond _, hrest _⟩).trans (congrArg Except.ok (substitute_ofList ..))

/-- A template with two markers can be filled so
    that rendering does not replace them at once. -/
theorem render_disturbing_ne {rest : List String} (h : t.markers = m :: n :: rest) :
    (t.disturbing m n).render ≠ .ok (t.disturbing m n).simultaneous := by
  have hnodup := nodup_markers t
  have hm : m ∈ t.markers := by simp [h]
  have hn : n ∈ t.markers := by simp [h]
  rw [h, List.nodup_cons, List.mem_cons, not_or] at hnodup
  obtain ⟨⟨hmn, -⟩, -⟩ := hnodup
  rw [render_disturbing h]
  have hlookup {name : String} (hname : name ∈ t.markers) :=
    lookup_disturbing (m := m) (n := n) hname
  generalize hd : t.disturbing m n = d at hlookup ⊢
  have hmarkers : d.markers = t.markers := by rw [← hd]; rfl
  have hvaluem : d.valueOf [m] m = some ("<" ++ n ++ ">") := by simp [valueOf, hlookup hm]
  have hvaluen : d.valueOf [m] n = none := if_neg (by simpa using Ne.symm hmn)
  have hlast : d.valueOf d.markers n = some "" := by
    simp [valueOf, hmarkers, hn, hlookup hn, Ne.symm hmn]
  have hrest : ∀ name, name ≠ n → Piece.fill (d.valueOf [m]) (.marker name) =
      Piece.fill (d.valueOf d.markers) (.marker name) := by
    intro name hname
    by_cases hfirst : name = m
    · simp [Piece.fill, valueOf, hfirst, hmarkers, hm]
    · rw [fill_of_none (if_neg (by simpa using hfirst))]
      by_cases hmem : name ∈ t.markers
      · have hself : d.valueOf d.markers name = some ("<" ++ name ++ ">") := by
          simp [valueOf, hmarkers, hmem, hlookup hmem, hfirst, hname]
        rw [fill_of_value hself, toList_brackets]
      · rw [fill_of_none (if_neg (hmarkers ▸ hmem))]
  -- More is dropped than the marker that is dropped by its value.
  have hdropped := length_substituteFrom (plain_of_mem hn) (d.partly [m])
  have hmore : d.parts.count (.marker n) + d.parts.count (.marker m) ≤
      occurrences (bracketed n) (d.parts.flatMap (Piece.fill (d.valueOf [m]))) :=
    (count_add_count_le hmn hvaluem hvaluen).trans (countP_le_occurrences (plain_of_mem hn))
  have hvalue : (d.parts.flatMap (Piece.fill (d.valueOf [m]))).length =
      (d.parts.flatMap (Piece.fill (d.valueOf d.markers))).length +
        d.parts.count (.marker n) * (bracketed n).length := length_fill hlast hvaluen hrest
  have hpos : 0 < d.parts.count (.marker m) := by
    rw [parts, count_pieces (fun _ => plain_of_mem) (hmarkers ▸ hm), occurrences_pos]
    exact (mem_markers.1 (hmarkers ▸ hm)).2
  intro heq
  have heq := congrArg String.toList (Except.ok.inj heq)
  rw [simultaneous_eq, String.toList_ofList, String.toList_ofList] at heq
  rw [heq, partly, partly, hvalue, Nat.add_right_inj] at hdropped
  have hcount := Nat.eq_of_mul_eq_mul_right (Nat.succ_pos _) hdropped
  omega

/-- A template is rendered if it is filled. Replacing markers in turn comes to replacing
    them at once as long as no marker comes in with a value, or is made up by one. For all
    values this holds only if there is but one marker. -/
theorem render_simultaneous_iff (t : Template) :
    ((∃ s, t.render = .ok s) ↔ t.Filled) ∧
    (t.Filled → t.Undisturbed → t.render = .ok t.simultaneous) ∧
    ((∀ values, { t with values }.Filled →
        { t with values }.render = .ok { t with values }.simultaneous) ↔
      t.markers.length ≤ 1) := by
  refine ⟨exists_render_iff, render_of_undisturbed, fun h => ?_, fun h values hfilled => ?_⟩
  · match hmarkers : t.markers with
    | [] => exact Nat.zero_le _
    | [_] => exact Nat.le_refl _
    | m :: n :: rest =>
      exact absurd (h _ (filled_disturbing t m n)) (render_disturbing_ne hmarkers)
  · refine render_of_undisturbed hfilled fun i hi => ?_
    -- Only the first marker has a turn.
    obtain rfl : i = 0 := Nat.lt_one_iff.1 (Nat.lt_of_lt_of_le hi h)
    rw [List.take_zero, partly_nil]

/-- Brackets in values do no harm by themselves. -/
def comparison : Template where
  name := "comparison"
  text := "if <LEFT> < <RIGHT> then <LEFT>"
  values := [("LEFT", "<a>"), ("RIGHT", "b<LEFT>")]

/-- Brackets that make up no marker disturb nothing. -/
theorem render_simultaneous_iff_comparison :
    comparison.Filled ∧ comparison.Undisturbed ∧
      comparison.render = .ok "if <a> < b<LEFT> then <a>" ∧ ¬ comparison.markers.length ≤ 1 := by
  have hmarkers : comparison.markers = ["LEFT", "RIGHT"] := by decide +kernel
  have hfilled : comparison.Filled := by
    rw [Filled, hmarkers]
    decide +kernel
  have hundisturbed : comparison.Undisturbed := by
    rw [Undisturbed, hmarkers]
    decide +kernel
  refine ⟨hfilled, hundisturbed, ?_, by rw [hmarkers]; decide⟩
  rw [(render_simultaneous_iff comparison).2.1 hfilled hundisturbed]
  decide +kernel

/-- A value that reads like a marker whose turn is still to come. -/
def chained : Template where
  name := "chained"
  text := "<ONE> <TWO>"
  values := [("ONE", "<TWO>"), ("TWO", "x")]

/-- A marker that a value makes up with the brackets around it. -/
def nested : Template where
  name := "nested"
  text := "<<ONE>> <TWO>"
  values := [("ONE", "TWO"), ("TWO", "x")]

/-- What is filled in may be a marker itself, or part of one, and is replaced then. -/
theorem not_simultaneous :
    (chained.simultaneous = "<TWO> x" ∧ chained.render = .ok "x x") ∧
    (nested.simultaneous = "<TWO> x" ∧ nested.render = .ok "x x") ∧
    ¬ ∀ t : Template, t.Filled → t.render = .ok t.simultaneous := by
  have hchained : chained.simultaneous = "<TWO> x" ∧ chained.render = .ok "x x" := by
    decide +kernel
  refine ⟨hchained, by decide +kernel, fun h => ?_⟩
  have hrender := h chained (by rw [Filled]; decide +kernel)
  rw [hchained.1, hchained.2] at hrender
  exact absurd (Except.ok.inj hrender) (by decide)

end Template

end ObjectModel
