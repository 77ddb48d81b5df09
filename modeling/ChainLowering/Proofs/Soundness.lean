import ChainLowering.Proofs.ChainSound
import ChainLowering.Proofs.Fits

/-!
# Soundness is kept

In a sound script every chain is complete and stands inside a statement. When
one is lowered the script stays sound.
-/

namespace ChainLowering

open ChainLowering.Tree

theorem Tree.Fits.congr {l : Label} {ts us : List Tree} (hf : Fits l ts)
    (h : us.map Tree.kind? = ts.map Tree.kind?) :
    Fits l us := by
  have hmem : ∀ u ∈ us, ∃ t ∈ ts, t.kind? = u.kind? := by
    intro u hu
    exact List.mem_map.mp (h ▸ List.mem_map_of_mem hu)
  refine ⟨hf.marked, ?_, ?_, ?_, ?_, ?_⟩
  · rintro hl rfl
    exact hf.link hl (List.map_eq_nil_iff.mp h.symm)
  · intro hl hm u hu
    obtain ⟨us, rfl⟩ : ∃ vs, us = u :: vs := List.head?_eq_some_iff.mp hu
    obtain ⟨t, ts, rfl, ht, -⟩ := List.map_eq_cons_iff.mp h.symm
    rw [Tree.isChain, ← ht]
    exact hf.goesOn hl hm t rfl
  · intro i hl u hu
    have hi : (us.map Tree.kind?)[i]? = some u.kind? := by rw [List.getElem?_map, hu]; rfl
    rw [h, List.getElem?_map, Option.map_eq_some_iff] at hi
    obtain ⟨t, ht, e⟩ := hi
    rw [Tree.isChain, ← e]
    exact hf.barred i hl t ht
  · intro k hl u hu
    obtain ⟨t, ht, e⟩ := hmem u hu
    rw [← e]
    exact hf.kinds k hl t ht
  · intro hl
    obtain ⟨n, p, b, rfl, hn, hp, hb⟩ := hf.function hl
    obtain ⟨n', us, rfl, hn', h⟩ := List.map_eq_cons_iff.mp h
    obtain ⟨p', us, rfl, hp', h⟩ := List.map_eq_cons_iff.mp h
    obtain ⟨b', us, rfl, hb', h⟩ := List.map_eq_cons_iff.mp h
    obtain rfl := List.map_eq_nil_iff.mp h
    exact ⟨n', p', b', rfl, hn'.trans hn, hp'.trans hp, hb'.trans hb⟩

/-- A chain may be exchanged for something that is none, where it is not continued. -/
theorem Tree.Fits.exchange {l : Label} {ts us : List Tree} {c d : Tree}
    (hf : Fits l (ts ++ c :: us)) (hc : c.isChain = true) (hl : l.kind.isChain = true → ts ≠ []) :
    Fits l (ts ++ d :: us) := by
  have hck : ∀ {k : Kind}, k.isChain = false → c.kind? ≠ some k := by
    intro k hk e
    rw [Tree.isChain, e] at hc
    exact absurd (hk.symm.trans hc) (by simp)
  have hmem : c ∈ ts ++ c :: us := by simp
  refine ⟨hf.marked, by simp, ?_, ?_, ?_, ?_⟩
  · intro hk hm t ht
    obtain ⟨u, ts, rfl⟩ := List.exists_cons_of_ne_nil (hl hk)
    exact hf.goesOn hk hm t ht
  · intro i hk t ht
    -- a child beside the chain is what it was, and the chain itself was not barred
    rcases lt_trichotomy i ts.length with hi | rfl | hi
    · rw [List.getElem?_append_left hi] at ht
      exact hf.barred i hk t (by rw [List.getElem?_append_left hi]; exact ht)
    · have := hf.barred _ hk c (by simp)
      exact absurd (hc.symm.trans this) (by simp)
    · obtain ⟨j, rfl⟩ := Nat.exists_eq_add_of_lt hi
      refine hf.barred _ hk t ?_
      rw [Option.mem_def, List.getElem?_append_right (by omega)] at ht ⊢
      rwa [show ts.length + j + 1 - ts.length = j + 1 by omega, List.getElem?_cons_succ] at ht ⊢
  · intro k hk
    exact absurd (hf.kinds k hk c hmem) (hck (Kind.isChain_of_holds hk))
  · intro hk
    obtain ⟨n, p, b, e, hn, hp, hb⟩ := hf.function hk
    rw [e] at hmem
    simp only [List.mem_cons, List.not_mem_nil, or_false] at hmem
    rcases hmem with rfl | rfl | rfl
    · exact absurd hn (hck rfl)
    · exact absurd hp (hck rfl)
    · exact absurd hb (hck rfl)

theorem Tree.Fits.ofGet {l : Label} {t u : Tree} {ts : List Tree} (hf : Fits l (t :: ts))
    (hl : l.kind.isGet = true) :
    Fits l (u :: ts) := by
  have hc := Grown.not_isChain_of_isGet hl
  have hk : l.kind.isLink = true := by
    revert hl; cases l.kind <;> decide
  exact .of_link hk hf.marked fun h => absurd (hc.symm.trans h) (by simp)

namespace Grown

variable {i : NodeId} {l : Label} {t u x e : Grown} {ts us : List Grown} {k : Link} {ks : List Link}
    {d : Lowering}
  {f g : Frame} {K M : Context}

def Sound (t : Grown) : Prop := t.toTree.Sound

@[simp] theorem kind?_toTree (t : Grown) : t.toTree.kind? = some t.label.kind := by
  obtain ⟨i, l, ts⟩ := t
  rw [toTree_node]
  rfl

theorem kind_of_script (h : Tree.Is .script t.toTree) : t.label.kind = .script := by
  have hk := h.kind?_eq rfl
  rw [kind?_toTree] at hk
  exact Option.some.inj hk

@[simp] theorem isChain_toTree (t : Grown) : t.toTree.isChain = t.label.kind.isChain := by
  simp [Tree.isChain]

theorem sound_node : (node i l ts).Sound ↔ Fits l (ts.map toTree) ∧ ∀ t ∈ ts, t.Sound := by
  rw [Sound, toTree_node]
  constructor
  · intro h
    generalize he : Tree.of l (ts.map toTree) = t at h
    obtain ⟨fits, children⟩ := h
    have hts := congrArg Tree.children he
    rw [children_of, children_of] at hts
    obtain rfl : l = _ := (Tree.node.inj he).1
    subst hts
    exact ⟨fits, fun t ht => children _ (List.mem_map_of_mem ht)⟩
  · rintro ⟨fits, children⟩
    refine .of fits ?_
    intro t ht
    obtain ⟨u, hu, rfl⟩ := List.mem_map.mp ht
    exact children u hu

theorem sound_undemanding (h : undemanding l = true) (hts : ∀ t ∈ ts, t.Sound) :
    (node i l ts).Sound :=
  sound_node.mpr ⟨.of_undemanding h _, hts⟩

theorem sound_fill :
    (f.fill t).Sound ↔ Fits f.label (f.left.map toTree ++ t.toTree :: f.right.map toTree) ∧
    (∀ u ∈ f.left, u.Sound) ∧ t.Sound ∧ ∀ u ∈ f.right, u.Sound := by
  rw [Frame.fill, sound_node, List.map_append, List.map_cons]
  simp only [List.mem_append, List.mem_cons]
  constructor
  · rintro ⟨hf, h⟩
    exact ⟨hf, fun u hu => h u (.inl hu), h t (.inr (.inl rfl)), fun u hu => h u (.inr (.inr hu))⟩
  · rintro ⟨hf, hl, ht, hr⟩
    refine ⟨hf, ?_⟩
    rintro u (hu | rfl | hu)
    · exact hl u hu
    · exact ht
    · exact hr u hu

theorem sound_of_plug (h : (plug K t).Sound) : t.Sound := by
  induction K generalizing t with
  | nil => exact h
  | cons f K ih => exact (sound_fill.mp (ih h)).2.2.1

theorem sound_plug_congr (h : (plug K t).Sound) (hu : u.Sound) (hl : u.label = t.label) :
    (plug K u).Sound := by
  induction K generalizing t u with
  | nil => exact hu
  | cons f K ih =>
    obtain ⟨hf, hleft, -, hright⟩ := sound_fill.mp (sound_of_plug (K := K) h)
    refine ih (t := f.fill t) h (sound_fill.mpr ⟨hf.congr ?_, hleft, hu, hright⟩) rfl
    simp [hl]

/-! ## The reference -/

theorem sound_keep (x : Temp) (h : t.Sound) : (x.keep t).Sound := by
  refine sound_node.mpr ⟨.of_bars rfl rfl ?_, ?_⟩
  · intro i hi u hu
    obtain rfl : i = 0 := by simpa [Label.made, Kind.bars] using hi
    obtain rfl := Option.some.inj hu
    rfl
  · simpa using ⟨sound_undemanding rfl (by simp), h⟩

theorem sound_use (x : Temp) : x.use.Sound := sound_undemanding rfl (by simp)

theorem sound_plainLink (h : k.label.kind.isChain = true) (ht : t.Sound) (hts : ∀ u ∈ ts, u.Sound) :
    (node i k.label.plain (t :: ts)).Sound := by
  refine sound_node.mpr ⟨?_, List.forall_mem_cons.mpr ⟨ht, hts⟩⟩
  have hp := isChain_plain k.label
  refine .of_link (isLink_plain h) ?_ ?_
  · intro hm
    cases hm
  · intro hc
    exact absurd (hp.symm.trans hc) (by simp)

def SoundArgs (ks : List Link) : Prop := ∀ k ∈ ks, ∀ u ∈ k.args, u.Sound

theorem sound_split (v : Saved) (hk : k.label.kind.isChain = true) (hargs : ∀ u ∈ k.args, u.Sound)
    (he : e.Sound) : (split v k e).receiver.Sound ∧ (split v k e).rest.Sound := by
  cases hc : (e.label.kind.isGet && decide (k.label.plain.kind = .call)) with
  | false =>
    rw [split_of_other hc]
    exact ⟨sound_keep _ he, sound_plainLink hk (sound_use _) hargs⟩
  | true =>
    obtain ⟨hg, hp⟩ := Bool.and_eq_true_iff.mp hc
    obtain ⟨j, m, _ | ⟨o, keys⟩⟩ := e
    · exact ⟨sound_keep _ he, sound_plainLink hk (sound_use _) hargs⟩
    · rw [label_node] at hg
      rw [split_of_get o keys hg (of_decide_eq_true hp)]
      obtain ⟨hf, hs⟩ := sound_node.mp he
      obtain ⟨ho, hkeys⟩ := List.forall_mem_cons.mp hs
      have hr : (node j m (v.this.keep o :: keys)).Sound := by
        refine sound_node.mpr ⟨?_, List.forall_mem_cons.mpr ⟨sound_keep _ ho, hkeys⟩⟩
        exact hf.ofGet hg
      have hdot : (node v.dot (.made .getProp (some "call") v.value.src) [v.value.use]).Sound := by
        refine sound_node.mpr ⟨.of_link rfl (fun hm => nomatch hm) (fun hc => nomatch hc), ?_⟩
        simpa using sound_use v.value
      exact ⟨sound_keep _ hr,
        sound_plainLink hk hdot (List.forall_mem_cons.mpr ⟨sound_use _, hargs⟩)⟩

def SoundParts (d : Lowering) : Prop := (∀ g ∈ d.guards, g.receiver.Sound) ∧ d.rest.Sound

theorem soundParts_step (glue : NodeId → Glue) (hk : k.label.kind.isChain = true)
    (hargs : ∀ u ∈ k.args, u.Sound) (h : SoundParts d) : SoundParts (Lowering.step glue d k) := by
  rw [Lowering.step]
  split_ifs
  · obtain ⟨hr, hs⟩ := sound_split (glue k.id).saved hk hargs h.2
    refine ⟨?_, hs⟩
    intro g hg
    rcases List.mem_append.mp hg with hg | hg
    · exact h.1 g hg
    · rw [List.mem_singleton.mp hg]; exact hr
  · exact ⟨h.1, sound_plainLink hk h.2 hargs⟩

theorem soundParts_foldl_step (glue : NodeId → Glue) (hc : Linked ks) (hargs : SoundArgs ks)
    (h : SoundParts d) :
    SoundParts (ks.foldl (Lowering.step glue) d) := by
  induction ks generalizing d with
  | nil => exact h
  | cons k ks ih =>
    exact ih (fun j hj => hc j (List.mem_cons_of_mem _ hj))
      (fun j hj => hargs j (List.mem_cons_of_mem _ hj))
      (soundParts_step glue (hc k List.mem_cons_self) (hargs k List.mem_cons_self) h)

theorem sound_guards {gs : List Guard} (h : ∀ g ∈ gs, g.receiver.Sound) (ht : t.Sound) :
    (plug (gs.map Guard.frame) t).Sound := by
  induction gs generalizing t with
  | nil => exact ht
  | cons g gs ih =>
    obtain ⟨hg, hgs⟩ := List.forall_mem_cons.mp h
    refine ih hgs (sound_undemanding rfl ?_)
    simp only [Guard.frame, List.cons_append, List.nil_append, List.mem_cons,
      List.not_mem_nil, or_false]
    rintro u (rfl | rfl | rfl)
    · refine sound_undemanding rfl ?_
      simpa using ⟨hg, sound_undemanding rfl (by simp)⟩
    · refine sound_undemanding rfl ?_
      simpa using sound_undemanding rfl (by simp)
    · exact ht

theorem sound_close (h : SoundParts d) : d.close.Sound :=
  sound_guards (fun g hg => h.1 g (by simpa using hg)) h.2

theorem sound_called {args : List Grown} (u : Temp) (dot : NodeId) (src : Label)
    (hk : l.kind = .call) (hm : l.chainStart = true → l.kind.isChain = true)
    (hget : d.rest.label.kind.isGet = true) (hd : SoundParts d) (hargs : ∀ t ∈ args, t.Sound) :
    (d.called u dot src i l args).Sound := by
  have hcall : ∀ {t ts}, t.Sound → (∀ t ∈ ts, t.Sound) → (node i l (t :: ts)).Sound := by
    intro t ts ht hts
    refine sound_node.mpr ⟨.of_link (by rw [hk]; rfl) hm fun hc => ?_,
      List.forall_mem_cons.mpr ⟨ht, hts⟩⟩
    rw [hk] at hc
    cases hc
  obtain ⟨xs, gs, ⟨j, m, _ | ⟨o, keys⟩⟩⟩ := d
  · exact hcall (sound_close hd) hargs
  · obtain ⟨hf, hs⟩ := sound_node.mp hd.2
    obtain ⟨ho, hkeys⟩ := List.forall_mem_cons.mp hs
    have hr : (node j m (u.keep o :: keys)).Sound := by
      refine sound_node.mpr ⟨?_, List.forall_mem_cons.mpr ⟨sound_keep _ ho, hkeys⟩⟩
      exact hf.ofGet hget
    refine hcall (sound_node.mpr ⟨.of_link rfl (fun hm => nomatch hm) (fun hc => nomatch hc), ?_⟩)
      (List.forall_mem_cons.mpr ⟨sound_use _, hargs⟩)
    simpa using sound_close (d := ⟨xs, gs, node j m (u.keep o :: keys)⟩) ⟨hd.1, hr⟩

theorem sound_placed (u : Temp) (dot : NodeId) (src : Label) (ht : t.label.kind.isChain = true)
    (h : (g.fill t).Sound) (hend : g.continues = false) (hd : SoundParts d) :
    (d.placed u dot src g).Sound := by
  obtain ⟨hf, hleft, -, hright⟩ := sound_fill.mp h
  rw [Lowering.placed]
  split_ifs with hcalled
  · simp only [Lowering.isCalled, Bool.and_eq_true, decide_eq_true_eq] at hcalled
    exact sound_called u dot src hcalled.1.1 hf.marked hcalled.2 hd hright
  · refine sound_fill.mpr ⟨hf.exchange (by simpa using ht) ?_, hleft, sound_close hd, hright⟩
    intro hg hnil
    rw [Frame.continues, hg, List.map_eq_nil_iff.mp hnil] at hend
    cases hend

theorem sound_declaring (xs : List Temp) (h : (f.fill t).Sound)
    (hf : f.label.kind.ownsStatements = true) : ((f.declaring xs).fill t).Sound := by
  obtain ⟨hfits, hleft, ht, hright⟩ := sound_fill.mp h
  have hmark : f.label.chainStart = false := by
    cases hm : f.label.chainStart with
    | false => rfl
    | true =>
      have := hfits.marked hm
      revert hf this
      cases f.label.kind <;> decide
  have hold : ∀ u ∈ f.left.map toTree ++ t.toTree :: f.right.map toTree, u.isChain = false := by
    intro u hu
    obtain ⟨i, hi⟩ := List.mem_iff_getElem?.mp hu
    exact hfits.barred i (Kind.bars_of_ownsStatements hf i) u hi
  have hlets : ∀ u ∈ (xs.map Temp.declaration), u.Sound ∧ u.label.kind = .letDecl := by
    intro u hu
    obtain ⟨x, -, rfl⟩ := List.mem_map.mp hu
    refine ⟨sound_node.mpr ⟨.of_holds rfl rfl ?_, ?_⟩, rfl⟩
    · simp [toTree_node, Tree.kind?, Tree.of, Label.made]
    · simpa using sound_undemanding rfl (by simp)
  refine sound_fill.mpr ⟨.of_owner hmark hf ?_, ?_, ht, hright⟩
  · simp only [Frame.declaring, List.map_append, List.mem_append, List.mem_cons, List.mem_map]
      at hold ⊢
    rintro u ((hu | ⟨w, hw, rfl⟩) | hu)
    · exact hold u (.inl hu)
    · rw [isChain_toTree, (hlets w (List.mem_map.mpr hw)).2]; rfl
    · exact hold u (.inr hu)
  · intro u hu
    rcases List.mem_append.mp hu with hu | hu
    · exact hleft u hu
    · exact (hlets u hu).1

theorem sound_replaced (xs : List Temp) (u : Temp) (dot : NodeId) (src : Label)
    (h : (plug (g :: K ++ f :: M) t).Sound) (ht : t.label.kind.isChain = true)
    (hend : endsChain (g :: K) = true) (hf : f.label.kind.ownsStatements = true)
    (hd : SoundParts d) : (plug (K ++ f.declaring xs :: M) (d.placed u dot src g)).Sound := by
  obtain ⟨ts, hts⟩ := exists_placed d u dot src g
  have hg : g.continues = false := by simpa [endsChain] using hend
  have hp : (d.placed u dot src g).Sound :=
    sound_placed u dot src ht (sound_of_plug (K := K ++ f :: M) h) hg hd
  have hl : (d.placed u dot src g).label = g.label := by rw [hts]; rfl
  have h' := sound_plug_congr (K := K ++ f :: M) h hp hl
  rw [plug_append, plug_cons] at h' ⊢
  exact sound_plug_congr h' (sound_declaring xs (sound_of_plug h') hf) rfl

/-! ## Chains of a sound tree -/

theorem sound_of_tower (h : (tower x ks).Sound) : x.Sound ∧ SoundArgs ks := by
  induction ks using List.reverseRecOn with
  | nil => exact ⟨h, fun _ hk => nomatch hk⟩
  | append_singleton ks k ih =>
    rw [tower_snoc] at h
    obtain ⟨-, hs⟩ := sound_node.mp h
    obtain ⟨ht, hargs⟩ := List.forall_mem_cons.mp hs
    obtain ⟨hx, hks⟩ := ih ht
    refine ⟨hx, ?_⟩
    intro j hj
    rcases List.mem_append.mp hj with hj | hj
    · exact hks j hj
    · rw [List.mem_singleton.mp hj]; exact hargs

theorem Sound.exists_tower (h : t.Sound) (ht : t.label.kind.isChain = true) :
    ∃ x ks, t = tower x ks ∧ ks ≠ [] ∧ Linked ks ∧ Flagged ks ∧ Receivable x := by
  obtain ⟨x, ks, rfl, hc, hx⟩ := Grown.exists_tower t
  have hlink : x.label.kind.isLink = true → x.children ≠ [] := by
    obtain ⟨i, l, ts⟩ := x
    intro hl hnil
    rw [children_node] at hnil
    obtain ⟨hf, -⟩ := sound_node.mp (sound_of_tower h).1
    exact hf.link hl (by rw [hnil, List.map_nil])
  have hxc : x.label.kind.isChain = false := by
    by_contra hch
    rw [Bool.not_eq_false] at hch
    exact hlink (isChain_of_isLink hch) (hx hch)
  have hne : ks ≠ [] := by
    rintro rfl
    rw [tower_nil, hxc] at ht
    cases ht
  refine ⟨x, ks, rfl, hne, hc, ?_, hxc, fun hg => hlink ?_⟩
  · intro k hk
    obtain ⟨ks, rfl⟩ : ∃ js, ks = k :: js := List.head?_eq_some_iff.mp hk
    obtain ⟨hf, -⟩ := sound_node.mp (sound_of_tower (x := .node k.id k.label (x :: k.args)) h).1
    by_contra hm
    have := hf.goesOn (hc k List.mem_cons_self) (by simpa using hm) x.toTree rfl
    rw [isChain_toTree, hxc] at this
    cases this
  · revert hg
    cases x.label.kind <;> decide

end Grown

end ChainLowering
