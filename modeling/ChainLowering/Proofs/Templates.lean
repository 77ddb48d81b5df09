import Mathlib.Data.List.GetD
import ChainLowering.Lowering.Error

/-!
# Filling the placeholders at once

Templates are filled one number after the other over the growing text. That is
the same as one pass over the template when no argument that is put in early
can take part in a placeholder of a later number.
-/

namespace ChainLowering

namespace Template

/-! ## One pass -/

/-- The number below `n` whose placeholder begins `s`. -/
def hole? (n : Nat) (s : List Char) : Option Nat :=
  (List.range n).find? fun i => (placeholder i).isPrefixOf s

/-- Fills all placeholders from the left and does not look at what the arguments bring; the first
`skip` characters belong to a placeholder that was already filled. -/
def passFrom (args : List (List Char)) : Nat → List Char → List Char
  | _, [] => []
  | skip + 1, _ :: s => passFrom args skip s
  | 0, c :: s =>
    match hole? args.length (c :: s) with
    | some i => args.getD i [] ++ passFrom args ((placeholder i).length - 1) s
    | none => c :: passFrom args 0 s

def fillOnce (text : String) (args : List String) : String :=
  .ofList (passFrom (args.map String.toList) 0 text.toList)

/-- Another character than a closing brace comes after the digits at the front. -/
def Shut (s : List Char) : Prop := ∃ c ∈ (s.dropWhile Char.isDigit).head?, c ≠ '\x7d'

/-- Takes part in no placeholder, neither one that begins in it nor one that begins before it. -/
def Inert (arg : List Char) : Prop := ∀ v, '\x7b' :: v <:+ '\x7b' :: arg → Shut v

/-! ## Placeholders -/

section
variable {i j : Nat} {c : Char} {s u v w new : List Char}

theorem isDigit_of_mem (h : c ∈ Nat.toDigits 10 i) : c.isDigit = true :=
  Nat.isDigit_of_mem_toDigits (by decide) (by decide) h

theorem placeholder_append : placeholder i ++ s = '\x7b' :: (Nat.toDigits 10 i ++ '\x7d' :: s) := by
  simp [placeholder]

theorem placeholder_prefix_cons : placeholder i <+: c :: s ↔
    '\x7b' = c ∧ Nat.toDigits 10 i ++ ['\x7d'] <+: s := by
  rw [placeholder, List.cons_append, List.cons_prefix_cons]

theorem takeWhile_digits :
    (Nat.toDigits 10 i ++ '\x7d' :: s).takeWhile Char.isDigit = Nat.toDigits 10 i := by
  rw [List.takeWhile_append_of_pos fun c hc => isDigit_of_mem hc,
    List.takeWhile_cons_of_neg (by decide), List.append_nil]

theorem placeholder_inj (h : placeholder i <+: placeholder j ++ s) : i = j := by
  obtain ⟨t, ht⟩ := h
  rw [placeholder_append, placeholder_append] at ht
  have hdigits := congrArg (List.takeWhile Char.isDigit) (List.cons.inj ht).2
  rw [takeWhile_digits, takeWhile_digits] at hdigits
  calc i = Nat.ofDigitChars 10 (Nat.toDigits 10 i) 0 := Nat.ofDigitChars_ten_toDigits.symm
    _ = Nat.ofDigitChars 10 (Nat.toDigits 10 j) 0 := by rw [hdigits]
    _ = j := Nat.ofDigitChars_ten_toDigits

theorem drop_placeholder :
    (Nat.toDigits 10 i ++ '\x7d' :: s).drop ((placeholder i).length - 1) = s := by
  rw [placeholder, List.cons_append, List.length_cons, Nat.add_sub_cancel, List.append_cons _ _ s,
    List.drop_left]

theorem Shut.not_closes {ds : List Char} (h : Shut v) (hds : ∀ c ∈ ds, c.isDigit = true) :
    ¬ ds ++ ['\x7d'] <+: v ++ w := by
  rintro ⟨t, ht⟩
  obtain ⟨c, hc, hne⟩ := h
  have hdrop := congrArg (List.dropWhile Char.isDigit) ht
  rw [List.append_assoc, List.dropWhile_append_of_pos hds, List.singleton_append,
    List.dropWhile_cons_of_neg (by decide), List.dropWhile_append] at hdrop
  rcases hv : v.dropWhile Char.isDigit with _ | ⟨d, rest⟩
  · rw [hv] at hc
    cases hc
  · rw [hv] at hc hdrop
    cases hc
    exact hne (List.cons.inj hdrop).1.symm

theorem Inert.no_placeholder (h : Inert u) (hne : v ≠ []) (hv : v <:+ u) :
    ¬ placeholder i <+: v ++ s := by
  intro hpre
  obtain ⟨c, v, rfl⟩ := List.exists_cons_of_ne_nil hne
  rw [List.cons_append] at hpre
  obtain ⟨rfl, hdigits⟩ := placeholder_prefix_cons.mp hpre
  exact (h v (hv.trans (List.suffix_cons _ _))).not_closes (fun _ => isDigit_of_mem) hdigits

theorem inert_of_notMem (hbrace : '\x7b' ∉ u) (h : Shut u) : Inert u := by
  intro v hv
  rcases List.suffix_cons_iff.mp hv with heq | hv
  · rw [(List.cons.inj heq).2]
    exact h
  · exact absurd (hv.subset List.mem_cons_self) hbrace

/-! ## Replacing -/

variable {old : List Char} {k : Nat}

theorem replaceFrom_skip : replaceFrom old new k s = replaceFrom old new 0 (s.drop k) := by
  induction s generalizing k with
  | nil => rw [List.drop_nil, replaceFrom, replaceFrom]
  | cons c s ih =>
    cases k with
    | zero => rfl
    | succ k => rw [replaceFrom, ih, List.drop_succ_cons]

theorem replaceFrom_cons (h : ¬ old <+: c :: s) :
    replaceFrom old new 0 (c :: s) = c :: replaceFrom old new 0 s := by
  rw [replaceFrom, if_neg (mt List.isPrefixOf_iff_prefix.mp h)]

theorem replaceFrom_append (h : ∀ v, v ≠ [] → v <:+ u → ¬ old <+: v ++ s) :
    replaceFrom old new 0 (u ++ s) = u ++ replaceFrom old new 0 s := by
  induction u with
  | nil => rfl
  | cons c u ih =>
    have hc : ¬ old <+: c :: (u ++ s) := h (c :: u) (List.cons_ne_nil _ _) List.suffix_rfl
    rw [List.cons_append, replaceFrom_cons hc,
      ih fun v hne hv => h v hne (hv.trans (List.suffix_cons _ _)), List.cons_append]

theorem replaceFrom_placeholder :
    replaceFrom (placeholder i) new 0 (placeholder i ++ s) =
      new ++ replaceFrom (placeholder i) new 0 s := by
  have hpre : (placeholder i).isPrefixOf (placeholder i ++ s) = true :=
    List.isPrefixOf_iff_prefix.mpr (List.prefix_append _ _)
  rw [placeholder_append] at hpre ⊢
  rw [replaceFrom, if_pos hpre, replaceFrom_skip, drop_placeholder]

/-! ## Passing -/

variable {args : List (List Char)}

theorem passFrom_skip : passFrom args k s = passFrom args 0 (s.drop k) := by
  induction s generalizing k with
  | nil => rw [List.drop_nil, passFrom, passFrom]
  | cons c s ih =>
    cases k with
    | zero => rfl
    | succ k => rw [passFrom, ih, List.drop_succ_cons]

theorem hole?_eq_none : hole? k s = none ↔ ∀ i < k, ¬ placeholder i <+: s := by
  simp [hole?]

theorem hole?_placeholder (h : i < k) : hole? k (placeholder i ++ s) = some i := by
  have hpre : placeholder i <+: placeholder i ++ s := List.prefix_append _ _
  cases hfound : hole? k (placeholder i ++ s) with
  | none => exact absurd hpre (hole?_eq_none.mp hfound i h)
  | some j =>
    have hj := List.find?_some hfound
    rw [placeholder_inj (List.isPrefixOf_iff_prefix.mp hj)]

theorem passFrom_cons (h : ∀ i < args.length, ¬ placeholder i <+: c :: s) :
    passFrom args 0 (c :: s) = c :: passFrom args 0 s := by
  rw [passFrom, hole?_eq_none.mpr h]

theorem passFrom_placeholder (h : i < args.length) :
    passFrom args 0 (placeholder i ++ s) = args.getD i [] ++ passFrom args 0 s := by
  have hhole := hole?_placeholder (s := s) h
  rw [placeholder_append] at hhole ⊢
  rw [passFrom, hhole]
  dsimp only
  rw [passFrom_skip, drop_placeholder]

theorem passFrom_append (h : '\x7b' ∉ u) : passFrom args 0 (u ++ s) = u ++ passFrom args 0 s := by
  induction u with
  | nil => rfl
  | cons c u ih =>
    rw [List.mem_cons, not_or] at h
    rw [List.cons_append, passFrom_cons, ih h.2, List.cons_append]
    intro i _ hpre
    exact h.1 (placeholder_prefix_cons.mp hpre).1

theorem passFrom_next :
    passFrom args 0 (placeholder args.length ++ s) =
      placeholder args.length ++ passFrom args 0 s := by
  have hkept : '\x7b' ∉ Nat.toDigits 10 args.length ++ ['\x7d'] := by
    intro h
    rcases List.mem_append.mp h with h | h
    · exact absurd (isDigit_of_mem h) (by decide)
    · exact absurd h (by decide)
  rw [placeholder_append, List.append_cons, passFrom_cons, passFrom_append hkept]
  · rfl
  intro i hi hpre
  rw [← List.append_cons, ← placeholder_append] at hpre
  exact absurd (placeholder_inj hpre) (Nat.ne_of_lt hi)

theorem passFrom_nil : passFrom [] 0 s = s := by
  induction s with
  | nil => rfl
  | cons c s ih =>
    rw [passFrom_cons, ih]
    intro i hi
    exact absurd hi (Nat.not_lt_zero i)

/-! ## One argument more -/

theorem getD_mem (h : i < args.length) : args.getD i [] ∈ args := by
  rw [List.getD_eq_getElem _ _ h]
  exact List.getElem_mem h

theorem passFrom_eq_cons {ds : List Char} (hargs : ∀ a ∈ args, Inert a)
    (hds : ∀ c ∈ ds, c.isDigit = true) (h : ds ++ ['\x7d'] <+: passFrom args 0 s) :
    ∃ c t, s = c :: t ∧ passFrom args 0 s = c :: passFrom args 0 t := by
  cases s with
  | nil =>
    exact absurd (List.prefix_nil.mp h) (List.append_ne_nil_of_right_ne_nil _ (List.cons_ne_nil _ _))
  | cons c t =>
    refine ⟨c, t, rfl, passFrom_cons fun i hi hpre => ?_⟩
    obtain ⟨u, hu⟩ := hpre
    rw [← hu, passFrom_placeholder hi] at h
    exact (hargs _ (getD_mem hi) _ List.suffix_rfl).not_closes hds h

theorem prefix_of_passFrom {ds : List Char} (hargs : ∀ a ∈ args, Inert a)
    (hds : ∀ c ∈ ds, c.isDigit = true) (h : ds ++ ['\x7d'] <+: passFrom args 0 s) :
    ds ++ ['\x7d'] <+: s := by
  induction ds generalizing s with
  | nil =>
    obtain ⟨c, t, rfl, hpass⟩ := passFrom_eq_cons hargs hds h
    rw [hpass] at h
    rw [List.nil_append, List.cons_prefix_cons] at h ⊢
    exact ⟨h.1, List.nil_prefix⟩
  | cons d ds ih =>
    obtain ⟨c, t, rfl, hpass⟩ := passFrom_eq_cons hargs hds h
    rw [hpass] at h
    rw [List.cons_append, List.cons_prefix_cons] at h ⊢
    exact ⟨h.1, ih (fun c hc => hds c (List.mem_cons_of_mem _ hc)) h.2⟩

theorem replaceFrom_filled (hargs : ∀ a ∈ args, Inert a) (hi : i ≤ args.length) :
    replaceFrom (placeholder args.length) new 0 (passFrom args 0 (placeholder i ++ s)) =
      (args ++ [new]).getD i [] ++ replaceFrom (placeholder args.length)
        new 0 (passFrom args 0 s) := by
  rcases Nat.lt_or_eq_of_le hi with hlt | rfl
  · have hinert := hargs _ (getD_mem hlt)
    rw [passFrom_placeholder hlt, replaceFrom_append fun v hne hv => hinert.no_placeholder hne hv,
      List.getD_append _ _ _ _ hlt]
  · rw [passFrom_next, replaceFrom_placeholder, List.getD_append_right _ _ _ _ (Nat.le_refl _),
      Nat.sub_self]
    rfl

theorem replaceFrom_kept (hargs : ∀ a ∈ args, Inert a)
    (h : ∀ i ≤ args.length, ¬ placeholder i <+: c :: s) :
    replaceFrom (placeholder args.length) new 0 (passFrom args 0 (c :: s)) =
      c :: replaceFrom (placeholder args.length) new 0 (passFrom args 0 s) := by
  rw [passFrom_cons fun i hi => h i (Nat.le_of_lt hi), replaceFrom_cons]
  intro hpre
  obtain ⟨hc, hpre⟩ := placeholder_prefix_cons.mp hpre
  apply h args.length (Nat.le_refl _)
  exact placeholder_prefix_cons.mpr ⟨hc, prefix_of_passFrom hargs (fun _ => isDigit_of_mem) hpre⟩

/-- Putting in one argument more after a pass is a pass with one argument more. -/
theorem replaceFrom_passFrom (hargs : ∀ a ∈ args, Inert a) :
    replaceFrom (placeholder args.length) new 0 (passFrom args 0 s) =
      passFrom (args ++ [new]) 0 s := by
  have hlen : (args ++ [new]).length = args.length + 1 := List.length_append
  -- The pass goes on after a whole placeholder, so the induction is on what is left.
  induction hn : s.length using Nat.strongRecOn generalizing s with
  | ind n ih =>
    subst hn
    by_cases hhole : ∃ i ≤ args.length, placeholder i <+: s
    · obtain ⟨i, hi, t, rfl⟩ := hhole
      have hless : t.length < (placeholder i ++ t).length := by
        rw [List.length_append]
        exact Nat.lt_add_of_pos_left (Nat.succ_pos _)
      rw [replaceFrom_filled hargs hi, ih t.length hless rfl,
        passFrom_placeholder (hlen ▸ Nat.lt_succ_of_le hi)]
    · have hnone : ∀ i ≤ args.length, ¬ placeholder i <+: s := fun i hi hpre => hhole ⟨i, hi, hpre⟩
      cases s with
      | nil => rfl
      | cons c s =>
        have hkept : ∀ i < (args ++ [new]).length, ¬ placeholder i <+: c :: s := by
          intro i hi
          rw [hlen] at hi
          exact hnone i (Nat.le_of_lt_succ hi)
        rw [replaceFrom_kept hargs hnone, ih s.length (Nat.lt_succ_self _) rfl, passFrom_cons hkept]

/-! ## All arguments -/

theorem fillFrom_passFrom {done : List (List Char)} (h : ∀ a ∈ (done ++ args).dropLast, Inert a) :
    fillFrom done.length (passFrom done 0 s) args = passFrom (done ++ args) 0 s := by
  induction args generalizing done with
  | nil => rw [fillFrom, List.append_nil]
  | cons arg args ih =>
    have hdone : ∀ a ∈ done, Inert a := by
      intro a ha
      apply h
      rw [List.dropLast_append_of_ne_nil (List.cons_ne_nil _ _)]
      exact List.mem_append_left _ ha
    have hlen : done.length + 1 = (done ++ [arg]).length := by rw [List.length_append]; rfl
    rw [List.append_cons] at h
    rw [fillFrom, replaceFrom_passFrom hdone, hlen, ih h, ← List.append_cons]

/-- Templates are filled at once when all arguments but the last are inert; the last may be any
text. -/
theorem fill_eq_fillOnce (text : String) {args : List String}
    (h : ∀ a ∈ args.dropLast, Inert a.toList) :
    fill text args = fillOnce text args := by
  have hargs : ∀ a ∈ ([] ++ args.map String.toList).dropLast, Inert a := by
    rw [List.nil_append, ← List.map_dropLast]
    exact List.forall_mem_map.mpr h
  have hfill := fillFrom_passFrom (s := text.toList) hargs
  rw [passFrom_nil, List.nil_append] at hfill
  exact congrArg String.ofList hfill

/-- An argument is itself a template for those that come after it. -/
theorem fillFrom_placeholder (arg : List Char) (args : List (List Char)) :
    fillFrom i (placeholder i) (arg :: args) = fillFrom (i + 1) arg args := by
  have hreplace : replaceFrom (placeholder i) arg 0 (placeholder i ++ []) = arg ++ [] :=
    replaceFrom_placeholder
  rw [List.append_nil, List.append_nil] at hreplace
  rw [fillFrom, hreplace]

example : fill "\x7b0\x7d\x7b1\x7d" ["\x7b1\x7d", "x"] = "xx" ∧
    fillOnce "\x7b0\x7d\x7b1\x7d" ["\x7b1\x7d", "x"] = "\x7b1\x7dx" := by
  cbv

end

end Template

theorem Site.kindName_inert (s : Site) : Template.Inert s.kindName.toList := by
  unfold kindName
  cases s.kind with
  | none => exact Template.inert_of_notMem (by decide) ⟨'<', rfl, by decide⟩
  | some k => cases k <;> exact Template.inert_of_notMem (by decide) ⟨_, rfl, by decide⟩

/-- Any number of kinds may be put into a template. -/
theorem Template.fill_kindNames (text : String) (sites : List Site) :
    fill text (sites.map Site.kindName) = fillOnce text (sites.map Site.kindName) := by
  apply fill_eq_fillOnce
  intro a ha
  obtain ⟨s, -, rfl⟩ := List.mem_map.mp (List.dropLast_subset _ ha)
  exact s.kindName_inert

theorem LoweringError.diagnostic_text (e : LoweringError) (file : String) :
    (e.diagnostic file).text = Template.fillOnce e.defect.template.text [e.site.kindName] :=
  Template.fill_kindNames _ [e.site]

end ChainLowering
