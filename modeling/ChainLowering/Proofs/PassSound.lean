import ChainLowering.Proofs.NurserySound
import ChainLowering.Proofs.Scopes

/-!
# Lowering whole scripts

The ends that are counted up front stay the ends that are left: every chain
that is lowered takes its own end away. So no chain fails, none is left, and
a second run finds nothing to do.
-/

namespace ChainLowering

open Grown Arena

namespace Changes

/-- A change in a scope. -/
def record (c : Changes) (s : Ref) : Changes :=
  match s with
  | none => c
  | some s => if c.scopes.contains s then c else ⟨c.scopes ++ [s]⟩

theorem report_eq (c : Changes) (a : Arena) (r : Ref) :
    (c.report a r).2 = c.record (a.enclosingScope? r) := by
  rw [report]
  cases a.enclosingScope? r <;> rfl

end Changes

theorem Arena.featuresOf_of_features {a b : Arena} {i : NodeId} {s : FeatureSet}
    (h : b.features = (i, s) :: a.features.filter fun e => e.1 != i) (r : Ref) :
    b.featuresOf r = if r = some i then s else a.featuresOf r := by
  have hfilter : ∀ (es : List (NodeId × FeatureSet)) (j : NodeId), j ≠ i →
      (es.filter fun e => e.1 != i).lookup j = es.lookup j := by
    intro es j hj
    induction es with
    | nil => rfl
    | cons e es ih =>
      obtain ⟨k, f⟩ := e
      by_cases hk : k = i
      · subst hk
        rw [List.filter_cons_of_neg (by simp), List.lookup_cons, beq_eq_false_iff_ne.mpr hj]
        exact ih
      · rw [List.filter_cons_of_pos (by simpa using hk), List.lookup_cons, List.lookup_cons, ih]
  cases r with
  | none => rfl
  | some j =>
    rw [featuresOf, featuresOf, h, List.lookup_cons]
    by_cases hj : j = i
    · simp [hj]
    · rw [beq_eq_false_iff_ne.mpr hj, hfilter _ _ hj, if_neg (by simpa using hj)]

namespace Lower

open NameSource

section
variable {σ : Type} [NameSource σ] {w : Work σ} {R : Entries} {t : Grown}

/-- Temporaries whose names were drawn one after the other. -/
structure Draws (g : σ) (xs : List Temp) (g' : σ) : Prop where
  names : xs.map Temp.name = drawn xs.length g
  rest : g' = after xs.length g

theorem after_add (m n : Nat) (g : σ) : after (m + n) g = after n (after m g) := by
  induction n with
  | zero => rfl
  | succ n ih => rw [Nat.add_succ, after, ih]; rfl

theorem drawn_add (m n : Nat) (g : σ) : drawn (m + n) g = drawn m g ++ drawn n (after m g) := by
  induction n with
  | zero => simp [drawn]
  | succ n ih => rw [← Nat.add_assoc, drawn_succ, ih, drawn_succ, after_add, List.append_assoc]

theorem Draws.nil (g : σ) : Draws g [] g := ⟨rfl, rfl⟩

theorem Draws.append {g g' g'' : σ} {xs ys : List Temp} (h : Draws g xs g') (h' : Draws g' ys g'') :
    Draws g (xs ++ ys) g'' := by
  obtain ⟨hx, rfl⟩ := h
  obtain ⟨hy, rfl⟩ := h'
  constructor
  · rw [List.map_append, hx, hy, List.length_append, drawn_add]
  · rw [List.length_append, after_add]

theorem enclosingScript?_setting {a : Arena} {x : Grown} {ks : List Link} {g f : Frame}
    {K M : Context} (hs : Setting t x ks g K f M) (hk : t.label.kind = .script)
    (h : a.Holds (t.entries none + R)) :
    ∃ script, a.enclosingScript? (some (plug (g :: K) (tower x ks)).id) = some script := by
  rw [hs.tree, plug_append] at h hk
  obtain ⟨r, hr, -, hlabel⟩ := exists_root_frame f M (plug (g :: K) (tower x ks))
  rw [← hlabel] at hk
  refine Option.isSome_iff_exists.mp (List.find?_isSome.mpr ⟨r.id, ?_, ?_⟩)
  · rw [ancestors_hole h]
    exact List.mem_cons_of_mem _ (List.mem_map_of_mem hr)
  · rw [isKind_of_labels h (labels_frame hr _).add_right, hk]
    rfl

/-- What the work comes to when some chains are lowered: the store holds other trees, and names were
drawn. -/
structure Becomes (w : Work σ) (R : Entries) (xs : List Temp) (E : Entries) (w' : Work σ) :
    Prop where
  holds : ∃ ps : List NodeId, w'.arena.Holds (E + (entriesAll none (ps.map placeholder) + R))
  draws : Draws w.names xs w'.names

/-- What is told of chains of a script that are lowered: the function or script of each, and the
feature that their declarations use. -/
structure Reports (w : Work σ) (t : Grown) (cs : List NodeId) (w' : Work σ) : Prop where
  changes : w'.changes =
    (cs.map fun c => w.arena.enclosingScope? (some c)).foldl Changes.record w.changes
  features : t.scripts = 1 → ∀ r, w'.arena.featuresOf r =
    if r = some t.id ∧ cs ≠ [] then (w.arena.featuresOf r).insert .letDeclarations
    else w.arena.featuresOf r

omit [NameSource σ] in
theorem Reports.nil (w : Work σ) (t : Grown) : Reports w t [] w := ⟨rfl, fun _ _ => by simp⟩

omit [NameSource σ] in
theorem Reports.cons {w₁ w₂ : Work σ} {S : Entries} {u : Grown} {c : NodeId} {cs : List NodeId}
    {xs : List Temp} (h : w.arena.Holds (t.entries none + R))
    (h₁ : w₁.arena.Holds (u.entries none + S)) (hu : Lowers t c xs u) (hcs : ∀ d ∈ cs, d ∈ t.ids)
    (first : Reports w t [c] w₁) (rest : Reports w₁ u cs w₂) : Reports w t (c :: cs) w₂ where
  changes := by
    have hscopes : (cs.map fun d : NodeId => w₁.arena.enclosingScope? (some d)) = cs.map fun d =>
        w.arena.enclosingScope? (some d) :=
      List.map_congr_left fun d hd => enclosingScope?_of_scopes_le h h₁ hu.scopes_le (hcs d hd)
    rw [rest.changes, hscopes, first.changes]
    rfl
  features hone r := by
    rw [rest.features (hu.scripts_eq.symm.trans hone) r, first.features hone r, hu.root.1]
    by_cases hr : r = some t.id
    · cases cs <;> simp [hr, FeatureSet.insert_insert]
    · simp [hr]

theorem enclosingScope?_setting {a : Arena} {x : Grown} {ks : List Link} {g f : Frame}
    {K M : Context} (hs : Setting t x ks g K f M) (h : a.Holds (t.entries none + R)) :
    a.enclosingScope? (some g.id) = a.enclosingScope? (some (tower x ks).id) := by
  rw [hs.tree] at h
  have hg : a.Holds ((plug (K ++ f :: M) (g.fill (tower x ks))).entries none + R) := h
  rw [enclosingScope?_hole h,
    Label.scope_of_not_isScope (not_isScope_of_isChain (isChain_tower hs.nonempty hs.links))]
  exact enclosingScope?_hole hg

theorem guardChain_reports {c : NodeId} (ht : t.Sound) (hk : t.label.kind = .script)
    (hc : c ∈ t.endSet false) (h : w.arena.Holds (t.entries none + R)) :
    Does (guardChain (some c)) w fun _ w' => ∃ xs u, Lowers t c xs u ∧
      Becomes w R xs (u.entries none) w' ∧ Reports w t [c] w' := by
  obtain ⟨x, ks, g, K, f, M, hs, rfl⟩ := exists_setting ht hk hc
  obtain ⟨script, hscript⟩ := enclosingScript?_setting hs hk h
  have hold := h
  rw [hs.tree] at hold
  refine (guardChain_does hs.receiver hs.nonempty hs.links hs.marked hs.ends hs.inside hs.owner hold
    hscript).mono ?_
  rintro guard w' ⟨⟨glue, u, dot, src, -, -, ⟨ps, h'⟩, hnames, hafter⟩, hfeatures, hchanges⟩
  have hu := Lowers.at hs rfl glue u dot src
  refine ⟨_, _, hu, ⟨⟨ps, h'⟩, hnames, hafter⟩, ?_, fun hone r => ?_⟩
  · have hg : g.id ∈ t.ids := by
      rw [hs.tree]
      exact mem_ids_plug (t := g.fill (tower x ks)) (K ++ f :: M) (g.fill (tower x ks)).id_mem_ids
    rw [hchanges, Changes.report_eq, enclosingScope?_of_scopes_le h h' hu.scopes_le hg,
      enclosingScope?_setting hs h]
    rfl
  · have hroot : script = t.id := by
      have hinner : w.arena.Holds ((plug (f :: M) (plug (g :: K) (tower x ks))).entries
          none + R) := by
        rw [← plug_append]
        exact hold
      refine eq_root_of_script hk hone h ?_
        (List.find?_some (p := fun i : NodeId => w.arena.isKind (some i) .script) hscript)
      rw [hs.tree, plug_append]
      exact mem_ids_of_ancestor hinner (List.mem_of_find?_eq_some hscript)
    rw [featuresOf_of_features hfeatures r, hroot]
    by_cases hr : r = some t.id <;> simp [hr]

theorem forM_guardChain_reports {cs : List NodeId} (ht : t.Sound) (hk : t.label.kind = .script)
    (hcs : t.endSet false = cs) (h : w.arena.Holds (t.entries none + R)) :
    Does (cs.forM fun c => discard (guardChain (some c))) w fun _ w' =>
      ∃ xs u, LowersAll t cs xs u ∧ Becomes w R xs (u.entries none) w' ∧ Reports w t cs w' := by
  induction cs generalizing t w R with
  | nil => exact does_pure ⟨[], t, .nil t, ⟨⟨[], by simpa using h⟩, .nil _⟩, .nil ..⟩
  | cons c cs ih =>
    have hids : ∀ d ∈ cs, d ∈ t.ids :=
      fun d hd => mem_ids_of_mem_endSet (hcs ▸ List.mem_cons_of_mem c hd)
    refine .bind (does_discard ((guardChain_reports ht hk (c := c) (by simp [hcs]) h).mono ?_))
    rintro - w₁ ⟨xs, u, hu, ⟨⟨ps, h₁⟩, hd⟩, hreport⟩
    have hrest : u.endSet false = cs := by
      have := hu.endSet
      rw [hcs, ← Multiset.cons_coe] at this
      exact (Multiset.cons_inj_right c).mp this.symm
    refine (ih (hu.sound ht) (by rw [hu.root.2, hk]) hrest h₁).mono ?_
    rintro - w₂ ⟨ys, v, hv, ⟨⟨qs, h₂⟩, hd'⟩, hreports⟩
    refine ⟨xs ++ ys, v, .cons hu hv, ⟨⟨qs ++ ps, h₂.of_eq ?_⟩, hd.append hd'⟩,
      .cons h h₁ hu hids hreport hreports⟩
    rw [List.map_append, entriesAll_append]
    abel

theorem forM_guardChain_sound {cs : List NodeId} (ht : t.Sound) (hk : t.label.kind = .script)
    (hcs : t.endSet false = cs) (h : w.arena.Holds (t.entries none + R)) :
    Does (cs.forM fun c => discard (guardChain (some c))) w fun _ w' =>
      ∃ xs u, LowersAll t cs xs u ∧ Becomes w R xs (u.entries none) w' :=
  (forM_guardChain_reports ht hk hcs h).mono fun _ _ ⟨xs, u, hu, hw, _⟩ => ⟨xs, u, hu, hw⟩

end

/-- Lowers the chains that end at some nodes, one after the other. -/
def chains (cs : List NodeId) : Lower Names Unit := cs.forM fun c => discard (guardChain (some c))

/-- Scripts with all their chains lowered, and the temporaries of all of them. -/
inductive LowersScripts : List Grown → List Temp → List Grown → Prop
  | nil : LowersScripts [] [] []
  | cons {t u : Grown} {ts us : List Grown} {xs ys : List Temp}
      (first : LowersAll t (t.ends false) xs u) (rest : LowersScripts ts ys us) :
      LowersScripts (t :: ts) (xs ++ ys) (u :: us)

section
variable {w : Work Names} {R : Entries} {t : Grown} {ts us : List Grown} {xs : List Temp}
    {options : Options}

theorem script_reports (ht : t.Sound) (hk : t.label.kind = .script)
    (h : w.arena.Holds (t.entries none + R)) :
    Does (script (some t.id)) w fun n w' => n = (t.ends false).length ∧ ∃ xs u,
      LowersAll t (t.ends false) xs u ∧
      Becomes w R xs (u.entries none) w' ∧ Reports w t (t.ends false) w' := by
  refine .bind (does_arena ?_)
  rw [chainEnds_tree h]
  refine .bind ((forM_guardChain_reports ht hk rfl h).mono ?_)
  intro _ w' hw
  exact does_pure ⟨rfl, hw⟩

theorem script_sound (ht : t.Sound) (hk : t.label.kind = .script)
    (h : w.arena.Holds (t.entries none + R)) :
    Does (script (some t.id)) w fun n w' =>
      n = (t.ends false).length ∧ ∃ xs u, LowersAll t (t.ends false) xs u ∧
      Becomes w R xs (u.entries none) w' :=
  (script_reports ht hk h).mono fun _ _ ⟨hn, xs, u, hu, hw, _⟩ => ⟨hn, xs, u, hu, hw⟩

theorem eraseDups_slots {a : Arena} (h : a.Holds (entriesAll none ts + R)) :
    (slots ts).eraseDups = slots ts := by
  have hnodup := h.nodup
  rw [Multiset.map_add, keys_entriesAll, Multiset.nodup_add] at hnodup
  have hids : (ts.flatMap ids).Nodup := hnodup.1
  clear hnodup h
  induction ts with
  | nil => rfl
  | cons t ts ih =>
    rw [List.flatMap_cons, List.nodup_append] at hids
    have hrest : (slots ts).filter (fun r => !r == some t.id) = slots ts := by
      refine List.filter_eq_self.mpr fun r hr => ?_
      obtain ⟨u, hu, rfl⟩ := mem_slots.mp hr
      have hne : u.id ≠ t.id :=
        fun e => hids.2.2 _ t.id_mem_ids _ (List.mem_flatMap.mpr ⟨u, hu, u.id_mem_ids⟩) e.symm
      simp [hne]
    rw [slots_cons, List.eraseDups_cons, hrest, ih hids.2.1]

theorem script_unchanged {r : Ref} (h : w.arena.chainEnds r = []) :
    Does (script r) w fun n w' => n = 0 ∧ w' = w := by
  refine .bind (does_arena ?_)
  rw [h]
  exact .bind (does_pure (does_pure ⟨rfl, rfl⟩))

/-- Each script is lowered when it first comes up, and is one of the scripts `done` when it comes up
again. -/
theorem foldlM_script_sound {roots : List Ref} {done : List Grown} (n : Nat)
    (hdone : ∀ u ∈ done, u.endSet false = 0)
    (hts : ∀ t ∈ ts, t.Sound ∧ t.label.kind = .script)
    (hroots : (roots.filter (· ∉ slots done)).eraseDups = slots ts)
    (h : w.arena.Holds (entriesAll none ts + (entriesAll none done + R))) :
    Does (roots.foldlM (fun n root => return n + (← script root)) n) w fun m w' =>
      m = n + (ts.map fun t => (t.ends false).length).sum ∧
        ∃ xs us, LowersScripts ts xs us ∧
        Becomes w R xs (entriesAll none us + entriesAll none done) w' := by
  induction roots generalizing n w R done ts with
  | nil =>
    obtain rfl : ts = [] := List.map_eq_nil_iff.mp hroots.symm
    exact does_pure ⟨rfl, [], [], .nil, ⟨[], by simpa using h⟩, .nil _⟩
  | cons r roots ih =>
    rw [List.foldlM_cons]
    by_cases hr : r ∈ slots done
    · obtain ⟨u, hu, rfl⟩ := mem_slots.mp hr
      have hends : w.arena.chainEnds (some u.id) = [] := by
        obtain ⟨left, right, rfl⟩ := List.append_of_mem hu
        rw [entriesAll_perm List.perm_middle, entriesAll_cons] at h
        rw [chainEnds_tree
          (h.of_eq (by
          abel : _ = u.entries none +
            (entriesAll none ts + (entriesAll none (left ++ right) + R))))]
        exact (Multiset.coe_eq_zero _).mp (hdone u hu)
      refine .bind (.bind ((script_unchanged hends).mono ?_))
      rintro m w₁ ⟨rfl, rfl⟩
      rw [List.filter_cons_of_neg (by simp [hr])] at hroots
      exact does_pure (ih _ hdone hts hroots h)
    · rw [List.filter_cons_of_pos (by simp [hr]), List.eraseDups_cons, List.filter_filter] at hroots
      obtain ⟨t, ts, rfl, rfl, hrest⟩ := List.map_eq_cons_iff.mp hroots.symm
      obtain ⟨⟨ht, hk⟩, hts⟩ := List.forall_mem_cons.mp hts
      rw [entriesAll_cons, add_assoc] at h
      refine .bind (.bind ((script_sound ht hk h).mono ?_))
      rintro m w₁ ⟨rfl, xs, u, hu, ⟨ps, h₁⟩, hd⟩
      have hheld : w₁.arena.Holds (entriesAll none ts +
          (entriesAll none (u :: done) + (entriesAll none (ps.map placeholder) + R))) := by
        refine h₁.of_eq ?_
        rw [entriesAll_cons]
        abel
      have hlowered : u.endSet false = 0 := by
        have := hu.endSet
        rwa [Grown.endSet, left_eq_add] at this
      have hnext : (roots.filter (· ∉ slots (u :: done))).eraseDups = slots ts := by
        refine (congrArg List.eraseDups (List.filter_congr fun r _ => ?_)).trans hrest.symm
        simp [hu.root.1, Bool.beq_eq_decide_eq]
      refine does_pure ((ih _ (List.forall_mem_cons.mpr ⟨hlowered, hdone⟩) hts hnext hheld).mono ?_)
      rintro k w₂ ⟨rfl, ys, us, hus, ⟨qs, h₂⟩, hd'⟩
      refine ⟨by rw [List.map_cons, List.sum_cons, Nat.add_assoc], xs ++ ys, u :: us, .cons hu hus,
        ⟨qs ++ ps, h₂.of_eq ?_⟩, hd.append hd'⟩
      rw [List.map_append, entriesAll_append, entriesAll_cons, entriesAll_cons]
      abel

/-- Scripts take their turns, in any order and perhaps more than once. The one whose turn it was
stands first then. -/
inductive Turns : Work Names → List Grown → List Ref → Work Names → List Grown → Prop
  | nil (w : Work Names) (ts : List Grown) : Turns w ts [] w ts
  | cons {w w₁ w₂ : Work Names} {t u : Grown} {left right us : List Grown} {rs : List Ref}
      {xs : List Temp} {R S : Entries}
      (before : w.arena.Holds (entriesAll none (left ++ t :: right) + R))
      (first : LowersAll t (t.ends false) xs u) (reports : Reports w t (t.ends false) w₁)
      (after : w₁.arena.Holds (entriesAll none (u :: (left ++ right)) + S))
      (rest : Turns w₁ (u :: (left ++ right)) rs w₂ us) :
      Turns w (left ++ t :: right) (some t.id :: rs) w₂ us

theorem foldlM_script_turns {roots : List Ref} (n : Nat) (hroots : ∀ r ∈ roots, r ∈ slots ts)
    (hts : ∀ t ∈ ts, t.Sound ∧ t.label.kind = .script)
    (h : w.arena.Holds (entriesAll none ts + R)) :
    Does (roots.foldlM (fun n root => return n + (← script root)) n) w fun _ w' =>
      ∃ (us : List Grown) (ps : List NodeId), Turns w ts roots w' us ∧
      w'.arena.Holds (entriesAll none us + (entriesAll none (ps.map placeholder) + R)) := by
  induction roots generalizing n w R ts with
  | nil => exact does_pure ⟨ts, [], .nil .., by simpa using h⟩
  | cons r roots ih =>
    obtain ⟨hmem, hrest⟩ := List.forall_mem_cons.mp hroots
    obtain ⟨t, ht, rfl⟩ := mem_slots.mp hmem
    obtain ⟨left, right, rfl⟩ := List.append_of_mem ht
    -- the script whose turn it is comes to stand before the others
    have hhead : w.arena.Holds (t.entries none + (entriesAll none (left ++ right) + R)) := by
      refine h.of_eq ?_
      rw [entriesAll_append, entriesAll_append, entriesAll_cons]
      abel
    rw [List.foldlM_cons]
    refine .bind (.bind ((script_reports (hts t ht).1 (hts t ht).2 hhead).mono ?_))
    rintro m w₁ ⟨-, xs, u, hu, ⟨⟨ps, h₁⟩, -⟩, hreports⟩
    have htree : w₁.arena.Holds (entriesAll none (u :: (left ++ right)) +
        (entriesAll none (ps.map placeholder) + R)) := by
      refine h₁.of_eq ?_
      rw [entriesAll_cons]
      abel
    refine does_pure ((ih _ ?_ ?_ htree).mono ?_)
    · intro r hr
      have hmem := hrest r hr
      simp only [slots_append, slots_cons, List.mem_append, List.mem_cons, hu.root.1] at hmem ⊢
      tauto
    · refine List.forall_mem_cons.mpr ⟨⟨hu.sound (hts t ht).1, by rw [hu.root.2, (hts t ht).2]⟩,
        fun v hv => hts v ?_⟩
      simp only [List.mem_append, List.mem_cons] at hv ⊢
      tauto
    · rintro _ w₂ ⟨us, qs, hus, h₂⟩
      refine ⟨us, qs ++ ps, .cons h hu hreports htree hus, h₂.of_eq ?_⟩
      rw [List.map_append, entriesAll_append]
      abel

/-- The names of all scripts are reserved before the first chain is lowered. -/
def reserveAll (a : Arena) (roots : List Ref) (g : Names) : Names := roots.foldl (·.reserveIn a ·) g

theorem scripts_sound {roots : List Ref} (hn : options.needsLowering .optionalChaining = true)
    (hts : ∀ t ∈ ts, t.Sound ∧ t.label.kind = .script) (hroots : roots.eraseDups = slots ts)
    (h : w.arena.Holds (entriesAll none ts + R)) :
    Does (scripts options roots) w fun report w' =>
      report = ⟨(ts.map fun t => (t.ends false).length).sum, w'.changes.scopes⟩ ∧ ∃ xs us,
      LowersScripts ts xs us ∧ Becomes { w with names := reserveAll w.arena roots w.names }
          R xs (entriesAll none us) w' := by
  have hfilter : (roots.filter (· ∉ slots [])).eraseDups = slots ts := by
    rw [List.filter_eq_self.mpr (by simp), hroots]
  have hdone : ∀ u ∈ ([] : List Grown), u.endSet false = 0 := nofun
  rw [← zero_add R, ← entriesAll_nil none] at h
  rw [scripts, hn]
  refine .bind (does_modify (.bind ((foldlM_script_sound
    (w := { w with names := reserveAll w.arena roots w.names }) 0 hdone hts hfilter h).mono ?_)))
  rintro n w' ⟨rfl, xs, us, hus, hw⟩
  rw [entriesAll_nil, add_zero] at hw
  refine .bind ⟨w', w', rfl, does_pure ⟨?_, xs, us, hus, hw⟩⟩
  rw [Nat.zero_add]

theorem scripts_turns {roots : List Ref} (hn : options.needsLowering .optionalChaining = true)
    (hroots : ∀ r ∈ roots, r ∈ slots ts) (hts : ∀ t ∈ ts, t.Sound ∧ t.label.kind = .script)
    (h : w.arena.Holds (entriesAll none ts + R)) :
    Does (scripts options roots) w fun report w' => report.scopes = w'.changes.scopes ∧
      ∃ (us : List Grown) (ps : List NodeId),
      Turns { w with names := reserveAll w.arena roots w.names } ts roots w' us ∧
        w'.arena.Holds (entriesAll none us + (entriesAll none (ps.map placeholder) + R)) := by
  rw [scripts, hn]
  refine .bind (does_modify (.bind ((foldlM_script_turns
    (w := { w with names := reserveAll w.arena roots w.names }) 0 hroots hts h).mono ?_)))
  intro n w' hw
  exact .bind ⟨w', w', rfl, does_pure ⟨rfl, hw⟩⟩

namespace LowersScripts

theorem slots_eq (h : LowersScripts ts xs us) : slots us = slots ts := by
  induction h with
  | nil => rfl
  | cons first _ ih => rw [slots_cons, slots_cons, ih, first.root.1]

theorem done (h : LowersScripts ts xs us) (hts : ∀ t ∈ ts, t.Sound) :
    ∀ u ∈ us, u.Sound ∧ u.endSet false = 0 := by
  induction h with
  | nil => simp
  | @cons t u ts us xs ys first _ ih =>
    obtain ⟨ht, hts⟩ := List.forall_mem_cons.mp hts
    refine List.forall_mem_cons.mpr ⟨⟨first.sound ht, ?_⟩, ih hts⟩
    have := first.endSet
    rwa [Grown.endSet, left_eq_add] at this

end LowersScripts

end

end Lower

end ChainLowering
