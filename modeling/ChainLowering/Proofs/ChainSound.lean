import Mathlib.Data.List.TakeWhile
import ChainLowering.Proofs.GuardSound

/-!
# Lowering one chain

A chain is lowered segment by segment, from below. The loop ends with the
reference lowering of its tower, in the place of the chain; the call of a
chain that ends in an access is put right after that.
-/

namespace ChainLowering

open Grown Arena

namespace Grown

variable {x e : Grown} {k s : Link} {ks us zs : List Link} {d : Lowering}

/-! ## The reference, segment by segment -/

/-- Fit to be cut off below a link. -/
def Receivable (t : Grown) : Prop :=
  t.label.kind.isChain = false ∧ (t.label.kind.isGet = true → t.children ≠ [])

theorem isChain_plain (l : Label) : l.plain.kind.isChain = false := by
  cases h : l.kind <;> simp [Label.plain, h, Kind.plain?, Kind.isChain]

theorem isLink_plain {l : Label} (h : l.kind.isChain = true) : l.plain.kind.isLink = true := by
  cases hk : l.kind <;> simp_all [Label.plain, Kind.plain?, Kind.isChain, Kind.isLink]

theorem not_isChain_of_isGet {k : Kind} (h : k.isGet = true) : k.isChain = false := by
  cases k <;> first | rfl | cases h

theorem receivable_link (i : NodeId) (l : Label) (t : Grown) (ts : List Grown) :
    Receivable (node i l.plain (t :: ts)) :=
  ⟨isChain_plain l, fun _ => List.cons_ne_nil _ _⟩

theorem receivable_split (v : Saved) (k : Link) (e : Grown) : Receivable (split v k e).rest := by
  obtain ⟨j, m, _ | ⟨o, keys⟩⟩ := e
  · exact receivable_link ..
  · simp only [split]
    split_ifs <;> exact receivable_link ..

theorem receivable_tower (h : Receivable x) (ks : List Link) :
    Receivable (tower x (ks.map Link.plain)) := by
  induction ks using List.reverseRecOn with
  | nil => exact h
  | append_singleton ks k ih =>
    rw [List.map_append, List.map_singleton, tower_snoc]
    exact receivable_link ..

theorem isChain_tower (hne : ks ≠ []) (hc : Linked ks) :
    (tower x ks).label.kind.isChain = true := by
  induction ks using List.reverseRecOn with
  | nil => exact absurd rfl hne
  | append_singleton ks k _ =>
    rw [tower_snoc]
    exact hc k (by simp)

theorem step_marked (glue : NodeId → Glue) (hs : s.label.chainStart = true) :
    Lowering.step glue d s = d.cut (glue s.id) s := by
  rw [Lowering.step, if_pos hs]

theorem foldl_step_unmarked (glue : NodeId → Glue) (hu : Unmarked us) :
    us.foldl (Lowering.step glue) d = { d with rest := tower d.rest (us.map Link.plain) } := by
  induction us generalizing d with
  | nil => rfl
  | cons u us ih =>
    rw [List.foldl_cons, Lowering.step, if_neg (by simp [hu u List.mem_cons_self]),
      ih fun k hk => hu k (List.mem_cons_of_mem _ hk)]
    rfl

theorem foldl_step_congr {f g : NodeId → Glue} (h : ∀ k ∈ ks, f k.id = g k.id) :
    ks.foldl (Lowering.step f) d = ks.foldl (Lowering.step g) d := by
  induction ks generalizing d with
  | nil => rfl
  | cons k ks ih =>
    have hk : Lowering.step f d k = Lowering.step g d k := by
      rw [Lowering.step, Lowering.step, h k List.mem_cons_self]
    rw [List.foldl_cons, List.foldl_cons, hk, ih fun j hj => h j (List.mem_cons_of_mem _ hj)]

theorem foldl_step_segment (g : Glue) (glue : NodeId → Glue) (hs : s.label.chainStart = true)
    (hu : Unmarked us) (hz : ∀ k ∈ zs, k.id ≠ s.id) :
    (s :: us ++ zs).foldl (Lowering.step (Function.update glue s.id g)) d =
      zs.foldl (Lowering.step glue)
        { d.cut g s with rest := tower (d.cut g s).rest (us.map Link.plain) } := by
  rw [List.foldl_append, List.foldl_cons, step_marked _ hs, Function.update_self,
    foldl_step_unmarked _ hu, foldl_step_congr fun k hk => Function.update_of_ne (hz k hk) g glue]

theorem id_tower_cut (g : Glue) (d : Lowering) (s : Link) (us zs : List Link) :
    (tower d.rest (s :: us ++ zs)).id =
      (tower (tower (d.cut g s).rest (us.map Link.plain)) zs).id := by
  rw [tower_append]
  refine id_plug_congr _ ?_
  rw [id_tower_plain]
  exact id_plug_congr (t := .node s.id s.label (d.rest :: s.args))
    _ (id_rest_split g.saved s d.rest).symm

theorem receivable_step (glue : NodeId → Glue) (k : Link) (d : Lowering) :
    Receivable (Lowering.step glue d k).rest := by
  rw [Lowering.step]
  split_ifs
  · exact receivable_split ..
  · exact receivable_link ..

theorem receivable_foldl_step (glue : NodeId → Glue) (ks : List Link) {d : Lowering}
    (h : Receivable d.rest) :
    Receivable (ks.foldl (Lowering.step glue) d).rest := by
  induction ks generalizing d with
  | nil => exact h
  | cons k ks ih => exact ih (receivable_step glue k d)

theorem receivable_lower (glue : NodeId → Glue) (x : Grown) (hne : ks ≠ []) :
    Receivable (lower glue x ks).rest := by
  obtain ⟨k, ks, rfl⟩ := List.exists_cons_of_ne_nil hne
  exact receivable_foldl_step glue ks (receivable_step glue k _)

theorem id_foldl_step (glue : NodeId → Glue) (ks : List Link) (d : Lowering) :
    (ks.foldl (Lowering.step glue) d).rest.id = (tower d.rest ks).id := by
  induction ks generalizing d with
  | nil => rfl
  | cons k ks ih =>
    rw [List.foldl_cons, ih, tower_cons]
    refine id_plug_congr _ ?_
    rw [Lowering.step]
    split_ifs
    · exact id_rest_split ..
    · rfl

theorem guards_foldl_step (glue : NodeId → Glue) (ks : List Link) (d : Lowering) :
    d.guards <+: (ks.foldl (Lowering.step glue) d).guards := by
  induction ks generalizing d with
  | nil => exact List.prefix_rfl
  | cons k ks ih =>
    refine List.IsPrefix.trans ?_ (ih _)
    simp only [Lowering.step]
    split_ifs
    · exact List.prefix_append _ _
    · exact List.prefix_rfl

theorem id_close {g : Guard} {gs : List Guard} (h : d.guards = g :: gs) :
    d.close.id = g.glue.hook := by
  rw [Lowering.close, h, List.reverse_cons, List.map_append, plug_append]
  rfl

theorem exists_placed (d : Lowering) (u : Temp) (dot : NodeId) (src : Label) (g : Frame) :
    ∃ ts, d.placed u dot src g = node g.id g.label ts := by
  obtain ⟨xs, gs, ⟨j, m, _ | ⟨o, keys⟩⟩⟩ := d
  all_goals
    simp only [Lowering.placed, Lowering.called]
    split_ifs <;> exact ⟨_, rfl⟩

theorem exists_tower (t : Grown) :
    ∃ x ks, t = tower x ks ∧ Linked ks ∧ (x.label.kind.isChain = true → x.children = []) := by
  induction t with
  | node i l ts ih =>
    by_cases hl : l.kind.isChain = true
    · cases ts with
      | nil => exact ⟨.node i l [], [], rfl, fun _ h => (nomatch h), fun _ => rfl⟩
      | cons t args =>
        obtain ⟨x, ks, rfl, hc, hx⟩ := ih t List.mem_cons_self
        refine ⟨x, ks ++ [⟨i, l, args⟩], by rw [tower_snoc], ?_, hx⟩
        intro k hk
        rcases List.mem_append.mp hk with hk | hk
        · exact hc k hk
        · rw [List.mem_singleton.mp hk]; exact hl
    · exact ⟨.node i l ts, [], rfl, fun _ h => (nomatch h), fun h => absurd h hl⟩

theorem exists_upper_segments (ks : List Link) :
    ∃ us zs, ks = us ++ zs ∧ Unmarked us ∧ Flagged zs := by
  refine ⟨ks.takeWhile fun k => !k.label.chainStart, ks.dropWhile fun k => !k.label.chainStart,
    List.takeWhile_append_dropWhile.symm, fun k hk => by
    simpa using List.mem_takeWhile_imp hk, fun k hk => ?_⟩
  have := List.head?_dropWhile_not (fun k : Link => !k.label.chainStart) ks
  rw [Option.mem_def] at hk
  rw [hk] at this
  simpa using this

theorem exists_first_segment (hne : ks ≠ []) (hf : Flagged ks) :
    ∃ s us zs, ks = s :: us ++ zs ∧ s.label.chainStart = true ∧ Unmarked us ∧ Flagged zs := by
  obtain ⟨s, ks, rfl⟩ := List.exists_cons_of_ne_nil hne
  obtain ⟨us, zs, rfl, hu, hz⟩ := exists_upper_segments ks
  exact ⟨s, us, zs, rfl, hf s rfl, hu, hz⟩

theorem starts_cons_segment (hs : s.label.chainStart = true) (hu : Unmarked us) :
    starts (s :: us ++ zs) = s.id :: starts zs := by
  rw [starts_append, starts_segment hs hu]; rfl

theorem ids_links (x : Grown) (ks : List Link) :
    (ks.map Link.id).reverse.Sublist (tower x ks).ids := by
  induction ks using List.reverseRecOn with
  | nil => exact List.nil_sublist _
  | append_singleton ks k ih =>
    rw [tower_snoc, List.map_append, List.reverse_append, ids_node, List.flatMap_cons]
    exact (ih.trans (List.sublist_append_left _ _)).cons_cons _

end Grown

theorem Arena.Holds.nodup_links {a : Arena} {K : Context} {x : Grown} {ks : List Link} {R : Entries}
    (h : a.Holds ((plug K (tower x ks)).entries none + R)) : (ks.map Link.id).Nodup := by
  have hids : ((tower x ks).ids : Multiset NodeId).Nodup := by
    rw [← keys_entries (owner K)]
    refine Multiset.nodup_of_le (Multiset.map_le_map ?_) h.nodup
    rw [entries_plug]
    exact (Multiset.le_add_left _ _).trans (Multiset.le_add_right _ _)
  exact List.nodup_reverse.mp ((ids_links x ks).nodup (Multiset.coe_nodup.mp hids))

theorem Arena.Holds.features {a : Arena} {E : Entries} (h : a.Holds E)
    (fs : List (NodeId × FeatureSet)) : ({ a with features := fs } : Arena).Holds E :=
  ⟨h.keys, h.nodes⟩

theorem Arena.Holds.ne_of_segment {a : Arena} {K : Context} {x : Grown} {s : Link}
    {us zs : List Link} {R : Entries}
    (h : a.Holds ((plug K (tower x (s :: us ++ zs))).entries none + R)) :
    ∀ k ∈ zs, k.id ≠ s.id := by
  intro k hk e
  have := h.nodup_links
  rw [List.cons_append, List.map_cons, List.nodup_cons] at this
  exact this.1 (e ▸ List.mem_map_of_mem (List.mem_append_right _ hk))

theorem Arena.checkChainEnd_ok {a : Arena} {r : Ref} (h : a.isChainEnd r = true) :
    a.checkChainEnd r = .ok () := by
  have hr : a.isChain r = true := by
    rw [isChainEnd, Bool.and_eq_true] at h
    exact h.1
  simp only [checkChainEnd, hr, h]
  rfl

namespace Lower

section
variable {σ : Type} {w : Work σ} {R : Entries} {f g : Frame} {K M : Context} {ks : List Link}

theorem locate_run {r : Ref} {s script : NodeId} (hend : w.arena.isChainEnd r = true)
    (hp : (w.arena.parent r).isSome = true) (hs : w.arena.enclosingStatement? r = some s)
    (hscript : w.arena.enclosingScript? (some s) = some script) :
    (locate r).run w = (.ok ⟨r, w.arena.parent r, s, script⟩, w) := by
  have harena : (arena : Lower σ Arena).run w = (.ok w.arena, w) := rfl
  have hchecked : (checked (w.arena.checkChainEnd r) : Lower σ Unit).run w = (.ok (), w) := by
    rw [checkChainEnd_ok hend]
    rfl
  rw [locate, run_bind harena, run_bind hchecked]
  simp only [Option.isNone_eq_false_iff.mpr hp, hs, hscript, Bool.false_eq_true, ite_false]
  rfl

theorem locate_does {x : Grown} {script : NodeId} {Q : Place → Work σ → Prop} (hne : ks ≠ [])
    (hc : Linked ks) (hend : endsChain (g :: K) = true)
    (hK : ∀ k ∈ g :: K, k.label.kind.ownsStatements = false)
    (hown : f.label.kind.ownsStatements = true)
    (h : w.arena.Holds ((plug (g :: K ++ f :: M) (tower x ks)).entries none + R))
    (hscript : w.arena.enclosingScript? (some (plug (g :: K) (tower x ks)).id) = some script)
    (hQ : Q ⟨some (tower x ks).id, some g.id, (plug (g :: K) (tower x ks)).id, script⟩ w) :
    Does (locate (some (tower x ks).id)) w Q := by
  have he : w.arena.isChainEnd (some (tower x ks).id) = true := by
    rw [isChainEnd_hole h, isChain_tower hne hc]
    exact hend
  have hpar : w.arena.parent (some (tower x ks).id) = some g.id := h.parent_hole
  refine ⟨_, _, locate_run he (by rw [hpar]; rfl) (enclosingStatement?_hole hK hown h) hscript, ?_⟩
  rw [hpar]
  exact hQ

end

open NameSource

variable {σ : Type} [NameSource σ] {w₀ w : Work σ} {R : Entries} {f g : Frame} {K M : Context}
    {p : Place} {d : Lowering}
  {ks : List Link}

/-- The loop over the segments. -/
theorem guardSegments_does (hK : K ≠ []) (hend : endsChain K = true)
    (hp : ∀ t, p.statement = (plug K t).id) (hchain : p.chain = some (tower d.rest ks).id)
    (hc : Linked ks) (hf : Flagged ks) (hrest : Receivable d.rest) (h : Stands w₀ K f M R d ks w) :
    Does ((starts ks).forM fun start => discard (guardSegment p start)) w fun _ w' =>
      ∃ glue, Stands w₀ K f M R (ks.foldl (Lowering.step glue) d) [] w' := by
  induction hn : ks.length using Nat.strong_induction_on generalizing ks d w with
  | _ n ih =>
    by_cases hne : ks = []
    · subst hne
      exact does_pure ⟨fun _ => default, h⟩
    · obtain ⟨s, us, zs, rfl, hs, hu, hz⟩ := exists_first_segment hne hf
      have hzs : ∀ k ∈ zs, k.id ≠ s.id := by
        obtain ⟨ps, hold⟩ := h.holds
        exact hold.ne_of_segment
      rw [starts_cons_segment hs hu, List.forM_eq_forM, List.forM_cons]
      refine .bind
        (does_discard
          (guardSegment_does hK hend hp hchain hs hc hu hz hrest.1 (fun hg _ => hrest.2 hg) h ?_))
      intro g w₁ h₁
      have hchain₁ : p.chain = some (tower (tower (d.cut g s).rest (us.map Link.plain)) zs).id := by
        rw [hchain, id_tower_cut g]
      have := ih zs.length (by
        rw [← hn, List.cons_append, List.length_cons, List.length_append]; omega) hchain₁
          (fun k hk => hc k (List.mem_append_right _ hk)) hz
        (receivable_tower (receivable_split ..) us) h₁ rfl
      refine this.mono ?_
      rintro - w₂ ⟨glue, h₂⟩
      refine ⟨Function.update glue s.id g, ?_⟩
      rw [foldl_step_segment g glue hs hu hzs]
      exact h₂

/-- Where a chain stands when all of it is lowered, the node above it included. -/
structure Settled (w₀ : Work σ) (K : Context) (f : Frame) (M : Context) (R : Entries)
    (xs : List Temp) (t : Grown) (w : Work σ) : Prop where
  since : Since w₀ xs w
  holds : ∃ ps : List NodeId, w.arena.Holds ((plug (K ++ f.declaring xs :: M) t).entries none +
    (entriesAll none (ps.map placeholder) + R))

theorem close_hole (d : Lowering) (K : Context) :
    plug (d.guards.reverse.map Guard.frame ++ K) d.rest = plug K d.close := by
  rw [plug_append]; rfl

theorem keepThisOfCall_does (hp : ∀ t, p.statement = (plug (g :: K) t).id)
    (hparent : p.parent = some g.id) (hchain : p.chain = some d.rest.id) (hrest : Receivable d.rest)
    (h : Stands w₀ (g :: K) f M R d [] w) :
    Does (keepThisOfCall p (some d.close.id)) w fun _ w' =>
      ∃ u dot src, Settled w₀ K f M R (d.declared u g) (d.placed u dot src g) w' := by
  obtain ⟨hs, ps, hold⟩ := h
  rw [tower_nil] at hold
  have hguard : w.arena.Holds ((plug (g :: K ++ f.declaring d.temps :: M) d.close).entries none +
      (entriesAll none (ps.map placeholder) + R)) := by
    rw [← close_hole, ← List.append_assoc]
    exact hold
  have hcall : w.arena.isCall (some g.id) = decide (g.label.kind = .call) := by
    simp [isCall, isKind, kind?_owner hguard]
  refine .bind (does_arena ?_)
  rw [hparent, hchain, hcall, isFirstChild_hole hguard, isGet_hole hold]
  cases hd : d.isCalled g with
  | false =>
    have hif : (decide (g.label.kind = .call) && g.left.isEmpty && d.rest.label.kind.isGet) =
        false := hd
    rw [hif, if_neg (by simp)]
    refine does_pure ⟨default, 0, default, ?_⟩
    rw [Lowering.declared, Lowering.placed, hd]
    exact ⟨hs, ps, hguard⟩
  | true =>
    have hif : (decide (g.label.kind = .call) && g.left.isEmpty && d.rest.label.kind.isGet) =
        true := hd
    obtain ⟨xs, gs, ⟨j, m, ts⟩⟩ := d
    obtain ⟨hcl, hget⟩ := Bool.and_eq_true_iff.mp hif
    obtain ⟨-, hleft⟩ := Bool.and_eq_true_iff.mp hcl
    obtain ⟨o, keys, rfl⟩ : ∃ o keys, ts = o :: keys := List.exists_cons_of_ne_nil (hrest.2 hget)
    have hfirst : w.arena.firstChild (some j) = some o.id := firstChild_hole hold
    -- the access stands inside the guards, so the hole is that of its object
    have hp' : p.statement =
        (plug (⟨j, m, [], keys⟩ :: (gs.reverse.map Guard.frame ++ g :: K)) o).id := by
      rw [plug_cons, plug_append]
      exact hp _
    rw [hif, if_pos rfl, id_node, hfirst]
    refine .bind (keepInTemp_within hs hp' (h := hold) ?_)
    intro u i w₁ hu hs₁ h₁
    let c : Grown := Lowering.close ⟨xs, gs, node j m (u.keep o :: keys)⟩
    have hc : c.id = (Lowering.close ⟨xs, gs, node j m (o :: keys)⟩).id := id_plug_congr _ rfl
    have hplug :
      plug (⟨j, m, [], keys⟩ :: (gs.reverse.map Guard.frame ++ g :: K) ++ f.declaring
        (xs ++ [u]) :: M)
        (u.keep o) = plug (g :: (K ++ f.declaring (xs ++ [u]) :: M)) c := by
      rw [List.cons_append, plug_cons, List.append_assoc]
      exact plug_append _ _ _
    rw [hplug] at h₁
    rw [← hc]
    refine .bind (does_leaves hs₁ (detach_leaves h₁) ?_)
    intro w₂ hs₂ h₂
    rw [List.isEmpty_iff.mp hleft, List.nil_append] at h₂
    refine callThrough_does u.use c g.right (x := pure ()) (l := g.label)
      (K := K ++ f.declaring (xs ++ [u]) :: M) (R := (placeholder i).entries none +
        (entriesAll none (ps.map placeholder) + R)) (fun _ => (bind_pure_unit).symm) hs₂
          (h₂.of_eq (by abel))
      (labels_root none c).add_right ?_
    intro dot w₃ hs₃ h₃
    refine does_pure ⟨u, dot, c.label, ?_⟩
    rw [Lowering.declared, Lowering.placed, hd]
    refine ⟨hs₃, i :: ps, h₃.of_eq ?_⟩
    rw [List.map_cons, entriesAll_cons, add_assoc]
    rfl

theorem exists_root_frame (g : Frame) (K : Context) (t : Grown) :
    ∃ k ∈ g :: K, k.id = (plug (g :: K) t).id ∧ k.label = (plug (g :: K) t).label := by
  induction K generalizing g t with
  | nil => exact ⟨g, List.mem_cons_self, rfl, rfl⟩
  | cons h K ih =>
    obtain ⟨k, hk, e⟩ := ih h (g.fill t)
    exact ⟨k, List.mem_cons_of_mem _ hk, e⟩

theorem isKind_of_labels {a : Arena} {E : Entries} {i : NodeId} {l : Label} (h : a.Holds E)
    (hl : Labels E i l) (k : Kind) : a.isKind (some i) k = decide (l.kind = k) := by
  obtain ⟨n, hn, rfl⟩ := hl
  simp [isKind, kind?, h.get hn]

theorem isScript_settled {a b : Arena} {xs : List Temp} {t : Grown} {ts : List Grown}
    {script : NodeId} {E : Entries} (ha : a.Holds ((plug (g :: K ++ f :: M) t).entries none + R))
    (hscript : a.enclosingScript? (some (plug (g :: K) t).id) = some script)
    (hb : b.Holds ((plug (K ++ f.declaring xs :: M) (node g.id g.label ts)).entries none + E)) :
    b.isKind (some script) .script = true := by
  have hmem := List.mem_of_find?_eq_some hscript
  have ha' : a.Holds ((plug (f :: M) (plug (g :: K) t)).entries none + R) := by
    rw [← plug_append]; exact ha
  rw [ancestors_hole ha', List.mem_cons] at hmem
  obtain ⟨k, hk, hid⟩ : ∃ k ∈ g :: K ++ f :: M, k.id = script := by
    rcases hmem with rfl | hmem
    · obtain ⟨k, hk, e, -⟩ := exists_root_frame g K t
      exact ⟨k, List.mem_append_left _ hk, e⟩
    · obtain ⟨k, hk, e⟩ := List.mem_map.mp hmem
      exact ⟨k, List.mem_append_right _ hk, e⟩
  subst hid
  have hkind := List.find?_some hscript
  rw [isKind_of_labels ha (labels_frame hk t).add_right] at hkind
  have hl : Labels ((plug (K ++ f.declaring xs :: M) (node g.id g.label ts)).entries none)
      k.id k.label := by
    simp only [List.cons_append, List.mem_cons, List.mem_append] at hk
    rcases hk with rfl | hk | rfl | hk
    · exact labels_hole _ _
    · exact labels_frame (List.mem_append_left _ hk) _
    · exact labels_frame (f := k.declaring xs) (List.mem_append_right _ List.mem_cons_self) _
    · exact labels_frame (List.mem_append_right _ (List.mem_cons_of_mem _ hk)) _
  rw [isKind_of_labels hb hl.add_right]
  exact hkind

/-- All that lowering of a chain leaves behind. -/
structure Guarded (w : Work σ) (K : Context) (g f : Frame) (M : Context) (R : Entries) (x : Grown)
    (ks : List Link) (script guard : NodeId) (w' : Work σ) : Prop where
  exists_glue : ∃ glue u dot src, let d := lower glue x ks
    guard = d.close.id ∧ d.rest.id = (tower x ks).id ∧ (∃ ps : List NodeId, w'.arena.Holds
      ((plug (K ++ f.declaring (d.declared u g) :: M) (d.placed u dot src g)).entries none +
        (entriesAll none (ps.map placeholder) + R))) ∧
    (d.declared u g).map Temp.name = drawn (d.declared u g).length w.names ∧
    w'.names = after (d.declared u g).length w.names
  features : w'.arena.features =
    (script, (w.arena.featuresOf (some script)).insert .letDeclarations) ::
    w.arena.features.filter (fun e => e.1 != script)
  changes : w'.changes = (w.changes.report w'.arena (some g.id)).2

/-- A chain that begins at a marked link and stands inside a statement is lowered, unless its first
link is to call an access to nothing. -/
theorem guardChain_tower {x : Grown} {script : NodeId} (hx : x.label.kind.isChain = false)
    (hget : ∀ k ∈ ks.head?, x.label.kind.isGet = true → k.label.plain.kind = .call →
      x.children ≠ []) (hne : ks ≠ [])
    (hc : Linked ks) (hf : Flagged ks) (hend : endsChain (g :: K) = true)
    (hK : ∀ k ∈ g :: K, k.label.kind.ownsStatements = false)
    (hown : f.label.kind.ownsStatements = true)
    (h : w.arena.Holds ((plug (g :: K ++ f :: M) (tower x ks)).entries none + R))
    (hscript : w.arena.enclosingScript? (some (plug (g :: K) (tower x ks)).id) = some script) :
    Does (guardChain (some (tower x ks).id)) w (Guarded w K g f M R x ks script) := by
  refine .bind (locate_does hne hc hend hK hown h hscript ?_)
  obtain ⟨s, us, zs, rfl, hs, hu, hz⟩ := exists_first_segment hne hf
  have hzs := h.ne_of_segment
  have hstarts : w.arena.segmentStarts (some (tower x (s :: us ++ zs)).id) =
      .ok (s.id :: starts zs) := by
    have hrest : Linked (us ++ zs) := fun k hk => hc k (List.mem_cons_of_mem _ hk)
    have := segmentStarts_tower (lowest_link (hc s List.mem_cons_self) hx) hrest h
    rw [label_node, if_pos hs, starts_append, starts_of_unmarked hu, List.nil_append] at this
    exact this
  refine .bind (does_arena (.bind ?_))
  rw [hstarts]
  refine does_checked ?_
  have hp : ∀ t, (plug (g :: K) (tower x (s :: us ++ zs))).id = (plug (g :: K) t).id :=
    fun t => id_plug (by simp) _ t
  have hstart : Stands w (g :: K) f M R { rest := x } (s :: us ++ zs) w := by
    refine ⟨.start w, [], ?_⟩
    simpa [Frame.declaring] using h
  refine .bind (guardSegment_does (by simp) hend hp rfl hs hc hu hz hx (hget s rfl) hstart ?_)
  intro g₀ w₁ h₁
  refine .bind
    ((guardSegments_does (by simp) hend hp ?_ (fun k hk => hc k (List.mem_append_right _ hk)) hz
    (receivable_tower (receivable_split ..) us) h₁).mono ?_)
  · exact congrArg some (id_tower_cut g₀ { rest := x } s us zs)
  rintro - w₂ ⟨glue, h₂⟩
  rw [← foldl_step_segment g₀ glue hs hu hzs] at h₂
  -- the glue of the first segment is taken together with that of the others
  have hlower : (s :: us ++ zs).foldl (Lowering.step (Function.update glue s.id g₀)) { rest := x } =
      lower (Function.update glue s.id g₀) x (s :: us ++ zs) := rfl
  have hguard : g₀.hook = (lower (Function.update glue s.id g₀) x (s :: us ++ zs)).close.id := by
    rw [Grown.lower, foldl_step_segment g₀ glue hs hu hzs]
    obtain ⟨gs, hgs⟩ := guards_foldl_step glue zs
      { Lowering.cut g₀ s { rest := x } with
        rest := tower (Lowering.cut g₀ s { rest := x }).rest (us.map Link.plain) }
    exact (id_close hgs.symm).symm
  have hid : (tower x (s :: us ++ zs)).id =
      (lower (Function.update glue s.id g₀) x (s :: us ++ zs)).rest.id :=
    (id_foldl_step _ _ { rest := x }).symm
  have hrest : Receivable (lower (Function.update glue s.id g₀) x (s :: us ++ zs)).rest :=
    receivable_lower _ x hne
  rw [hlower] at h₂
  generalize Function.update glue s.id g₀ = glue at h₂ hguard hid hrest
  rw [hguard]
  refine .bind ((keepThisOfCall_does hp rfl (congrArg some hid) hrest h₂).mono ?_)
  rintro - w₃ ⟨u, dot, src, hs₃, ps, h₃⟩
  obtain ⟨ts, hts⟩ := exists_placed (lower glue x (s :: us ++ zs)) u dot src g
  have hscript₃ := isScript_settled h hscript (hts ▸ h₃)
  have hadd : w₃.arena.addFeature (some script) .letDeclarations = .ok { w₃.arena with
      features := (script, (w₃.arena.featuresOf (some script)).insert .letDeclarations) ::
        w₃.arena.features.filter (fun e => e.1 != script) } := by
    simp only [addFeature, hscript₃]
    rfl
  refine .bind (does_edit hadd (.bind (does_modify (does_pure ?_))))
  refine ⟨⟨glue, u, dot, src, rfl, hid.symm, ⟨ps, h₃.features _⟩, hs₃.drawn, hs₃.names⟩, ?_, ?_⟩
  · simp only [featuresOf, hs₃.features]
  · simp only [hs₃.changes]

theorem guardChain_does {x : Grown} {script : NodeId} (hx : Receivable x) (hne : ks ≠ [])
    (hc : Linked ks) (hf : Flagged ks) (hend : endsChain (g :: K) = true)
    (hK : ∀ k ∈ g :: K, k.label.kind.ownsStatements = false)
    (hown : f.label.kind.ownsStatements = true)
    (h : w.arena.Holds ((plug (g :: K ++ f :: M) (tower x ks)).entries none + R))
    (hscript : w.arena.enclosingScript? (some (plug (g :: K) (tower x ks)).id) = some script) :
    Does (guardChain (some (tower x ks).id)) w (Guarded w K g f M R x ks script) :=
  guardChain_tower hx.1 (fun _ _ hg _ => hx.2 hg) hne hc hf hend hK hown h hscript

end Lower

end ChainLowering
