import ChainLowering.Proofs.SegmentSound
import ChainLowering.Proofs.TempSound

/-!
# Guards

One segment of a chain is cut off its tower, kept, and put into a guard that
takes the place of the chain. The loop over the segments keeps `Stands`: the
guards so far stand around the tower that is left.
-/

namespace ChainLowering

open Grown Arena

namespace Grown

theorem split_of_get {v : Saved} {k : Link} {j : NodeId} {m : Label} (o : Grown) (keys : List Grown)
    (hm : m.kind.isGet = true) (hk : k.label.plain.kind = .call) :
    split v k (node j m (o :: keys)) =
      ⟨[v.this, v.value], v.value.keep (node j m (v.this.keep o :: keys)),
      node k.id k.label.plain
        (node v.dot (.made .getProp (some "call") v.value.src) [v.value.use] :: v.this.use ::
          k.args)⟩ := by
  simp [split, hm, hk]

theorem split_of_other {v : Saved} {k : Link} {e : Grown}
    (h : (e.label.kind.isGet && k.label.plain.kind = .call) = false) :
    split v k e = ⟨[v.value], v.value.keep e, node k.id k.label.plain (v.value.use :: k.args)⟩ := by
  obtain ⟨j, m, _ | ⟨o, keys⟩⟩ := e
  · rfl
  · simp only [split]
    rw [if_neg (by simpa using h)]

theorem split_cases (v : Saved) (k : Link) (e : Grown) :
    split v k e = ⟨[v.value], v.value.keep e, node k.id k.label.plain (v.value.use :: k.args)⟩ ∨
      ∃ j m o keys, e = node j m (o :: keys) ∧ m.kind.isGet = true ∧ k.label.plain.kind = .call ∧
        split v k e = ⟨[v.this, v.value], v.value.keep (node j m (v.this.keep o :: keys)),
          node k.id k.label.plain
            (node v.dot (.made .getProp (some "call") v.value.src) [v.value.use] :: v.this.use ::
              k.args)⟩ := by
  obtain ⟨j, m, _ | ⟨o, keys⟩⟩ := e
  · exact .inl rfl
  · by_cases h : m.kind.isGet = true ∧ k.label.plain.kind = .call
    · exact .inr ⟨j, m, o, keys, rfl, h.1, h.2, split_of_get o keys h.1 h.2⟩
    · refine .inl (split_of_other ?_)
      rw [label_node, ← Bool.not_eq_true, Bool.and_eq_true, decide_eq_true_eq]
      exact h

theorem id_rest_split (v : Saved) (k : Link) (e : Grown) : (split v k e).rest.id = k.id := by
  obtain ⟨j, m, _ | ⟨o, keys⟩⟩ := e
  · rfl
  · simp only [split]
    split_ifs <;> rfl

theorem id_tower_plain (x : Grown) (ks : List Link) :
    (tower x (ks.map Link.plain)).id = (tower x ks).id := by
  induction ks using List.reverseRecOn with
  | nil => rfl
  | append_singleton ks k ih =>
      rw [List.map_append, List.map_singleton, tower_snoc, tower_snoc]; rfl

theorem id_plug_congr {t u : Grown} (K : Context) (h : t.id = u.id) :
    (plug K t).id = (plug K u).id := by
  cases K with
  | nil => exact h
  | cons f K => exact id_plug (by simp) t u

theorem id_tower_opened (x : Grown) (s : Link) (us zs : List Link) :
    (tower x (s :: us ++ zs)).id =
      (plug (s.plain.frame :: (us.map Link.plain ++ zs).map Link.frame) x).id := by
  rw [tower_append]
  refine (id_plug_congr (zs.map Link.frame) (id_tower_plain x (s :: us)).symm).trans ?_
  exact congrArg Grown.id (tower_append x ((s :: us).map Link.plain) zs).symm

end Grown

namespace Lower

variable {σ : Type} [NameSource σ] {w₀ w : Work σ} {xs : List Temp} {R : Entries}
    {t e : Grown} {f : Frame}
  {C K L M : Context} {k s : Link} {p : Place}

theorem detach_leaves {a : Arena} (h : a.Holds ((plug (f :: K) t).entries none + R)) :
    Edited.Leaves (.ok (a.detach (some t.id))) a
      ((plug K (Grown.node f.id f.label (f.left ++ f.right))).entries none +
        (t.entries none + R)) :=
  ⟨_, rfl, detach_holds h, by simp [detach]⟩

theorem callThrough_does {β : Type} {x : Lower σ β} {y : NodeId → Lower σ β} {Q : β → Work σ → Prop}
    (this callee : Grown) {i src : NodeId} {l m : Label} (ts : List Grown)
    (hy : ∀ dot, y dot = edit (·.addToFront (some i) (some dot)) >>= fun _ => x)
    (hs : Since w₀ xs w)
    (h : w.arena.Holds
      ((plug K (.node i l ts)).entries none + (this.entries none + (callee.entries none + R))))
        (hsrc : Labels (callee.entries none + R) src m)
    (hQ : ∀ (dot : NodeId) (w' : Work σ), Since w₀ xs w' → w'.arena.Holds ((plug K (.node i l
      (.node dot (.made .getProp (some "call") m) [callee] :: this :: ts))).entries none + R) →
        Does x w' Q) :
    Does (do
      edit (·.addToFront (some i) (some this.id))
      let dot ← build (·.newGetProp (some callee.id) "call" (some src))
      y dot) w Q := by
  refine .bind (does_leaves hs (addToFront_leaves h) ?_)
  intro w₁ hs₁ h₁
  rw [add_left_comm] at h₁
  have hm : Labels (callee.entries none + ((plug K (.node i l (this :: ts))).entries none + R))
      src m := by
    rw [add_left_comm]; exact hsrc.add_left
  refine .bind (does_builds hs₁ (newGetProp_builds "call" h₁ hm) ?_)
  intro w₂ hs₂ h₂
  rw [add_left_comm] at h₂
  rw [hy]
  exact .bind (does_leaves hs₂ (addToFront_leaves h₂) fun w₃ hs₃ h₃ => hQ w₁.arena.size w₃ hs₃ h₃)

/-- Cuts a tower that stands apart below its lowest link. -/
theorem splitReceiver_does {Q : Ref → Work σ → Prop} (hs : Since w₀ xs w)
    (hp : p.statement = (plug L t).id)
    (hget : e.label.kind.isGet = true → k.label.plain.kind = .call → e.children ≠ [])
    (h : w.arena.Holds ((plug (L ++ f.declaring xs :: M) t).entries none +
      ((plug (k.plain.frame :: C) e).entries none + R)))
    (hQ : ∀ (v : Saved) (ps : List NodeId) (w' : Work σ), Since w₀ (xs ++ (split v k e).temps) w' →
      w'.arena.Holds ((plug (L ++ f.declaring (xs ++ (split v k e).temps) :: M) t).entries none +
        ((plug C (split v k e).rest).entries none +
          ((split v k e).receiver.entries none + (entriesAll none (ps.map placeholder) + R)))) →
      Q (some (split v k e).receiver.id) w') :
    Does (splitReceiver p (some k.id) (some e.id)) w Q := by
  have h' : w.arena.Holds ((plug (k.plain.frame :: C) e).entries none +
      ((plug (L ++ f.declaring xs :: M) t).entries none + R)) := by rwa [add_left_comm] at h
  have hcall : w.arena.isCall (some k.id) = decide (k.label.plain.kind = .call) := by
    have := kind?_owner h'
    simp only [Link.frame, Link.plain] at this
    simp [isCall, isKind, this]
  refine .bind (does_arena ?_)
  rw [isGet_hole h', hcall]
  cases hc : (e.label.kind.isGet && decide (k.label.plain.kind = .call)) with
  | true =>
    -- the object is kept inside the member before the member is kept itself
    obtain ⟨hg, hk⟩ := Bool.and_eq_true_iff.mp hc
    replace hk := of_decide_eq_true hk
    obtain ⟨j, m, ts⟩ := e
    rw [label_node] at hg
    obtain ⟨o, keys, rfl⟩ : ∃ o keys, ts = o :: keys := List.exists_cons_of_ne_nil (hget hg hk)
    have hfirst : w.arena.firstChild (some j) = some o.id := firstChild_hole h'
    rw [if_pos rfl, id_node, hfirst]
    refine .bind (keepInTemp_apart (g := ⟨j, m, [], keys⟩) (K := k.plain.frame :: C) hs hp h ?_)
    intro u pu w₁ hu hs₁ h₁
    refine .bind
      (keepInTemp_apart (g := k.plain.frame) (K := C)
        (e := node j m (u.keep o :: keys)) hs₁ hp h₁ ?_)
    intro v pv w₂ hv hs₂ h₂
    rw [add_left_comm] at h₂
    have hkept : w₂.arena.firstChild (some k.id) = some (v.keep (node j m (u.keep o :: keys))).id :=
      firstChild_owner h₂ rfl
    refine .bind (does_arena ?_)
    rw [hkept]
    refine .bind (does_leaves hs₂ (detach_leaves h₂) ?_)
    intro w₃ hs₃ h₃
    let kept := v.keep (node j m (u.keep o :: keys))
    refine callThrough_does u.use v.use k.args (i := k.id) (l := k.label.plain) (K := C)
      (R := kept.entries none + ((plug (L ++ f.declaring (xs ++ [u] ++ [v]) :: M) t).entries none +
        ((placeholder pu).entries none + ((placeholder pv).entries none + R)))) (fun _ => rfl)
          hs₃ (h₃.of_eq ?_)
      (labels_root none kept).add_right.add_left ?_
    · simp only [Link.frame, Link.plain, List.nil_append, kept]
      abel
    · intro dot w₄ hs₄ h₄
      have hq := hQ ⟨v, u, dot⟩ [pu, pv] w₄
      rw [split_of_get o keys hg hk] at hq
      refine does_pure (hq (by simpa using hs₄) (h₄.of_eq ?_))
      have hl : Label.made .getProp (some "call") kept.label = .made .getProp (some "call") v.src :=
        rfl
      simp only [List.map_cons, List.map_nil, entriesAll_cons, entriesAll_nil, List.append_assoc,
        List.cons_append, List.nil_append, hl]
      simp only [kept]
      abel
  | false =>
    -- only the value is kept, and its temporary stands in its place
    rw [if_neg (by simp)]
    refine .bind (keepInTemp_apart (g := k.plain.frame) (K := C) hs hp h ?_)
    intro v pv w₁ hv hs₁ h₁
    rw [add_left_comm] at h₁
    have hkept : w₁.arena.firstChild (some k.id) = some (v.keep e).id := firstChild_owner h₁ rfl
    refine .bind (does_arena ?_)
    rw [hkept]
    refine .bind
      (does_leaves hs₁
        (replaceWith_leaves (u := v.use)
          (R := (plug (L ++ f.declaring (xs ++ [v]) :: M) t).entries none +
      ((placeholder pv).entries none + R)) (h₁.of_eq (by abel))) ?_)
    intro w₂ hs₂ h₂
    have hsplit : split ⟨v, v, 0⟩ k e = _ := split_of_other hc
    have := hQ ⟨v, v, 0⟩ [pv] w₂
    rw [hsplit] at this
    refine does_pure (this hs₂ (h₂.of_eq ?_))
    simp only [List.map_singleton, entriesAll_cons, entriesAll_nil]
    rw [plug_cons]
    simp only [Frame.fill, Link.frame, Link.plain, List.nil_append]
    abel

theorem closeGuard_does {Q : NodeId → Work σ → Prop} {c r : Grown} {g : Frame}
    {i : NodeId} (v : Saved) (hs : Since w₀ xs w)
    (h : w.arena.Holds ((plug (g :: K) (placeholder i)).entries none +
      (c.entries none + (r.entries none + R))))
    (hQ : ∀ (glue : Glue) (w' : Work σ), glue.saved = v → Since w₀ xs w' →
      w'.arena.Holds ((plug (Guard.frame ⟨glue, r⟩ :: g :: K) c).entries none +
        ((placeholder i).entries none + R)) →
      Q glue.hook w') :
    Does (do
      let null ← build (·.newNull (some c.id))
      let isNullish ← build (·.newEq (some r.id) null (some c.id))
      let undefined ← build (·.newUndefined (some c.id))
      let guard ← build (·.newHook isNullish undefined (some c.id) (some c.id))
      edit (·.replaceWith (some i) guard)
      return guard) w Q := by
  have hl : Labels (c.entries none + R) c.id c.label := (labels_root none c).add_right
  refine .bind (does_builds hs (newNull_builds h (labels_root none c).add_right.add_left) ?_)
  intro w₁ hs₁ h₁
  refine .bind (does_builds hs₁ (newEq_builds (R := (plug (g :: K) (placeholder i)).entries none +
    (c.entries none + R)) (h₁.of_eq (by abel)) hl.add_left.add_left.add_left) ?_)
  intro w₂ hs₂ h₂
  obtain ⟨m, n, hb⟩ := newUndefined_builds h₂ hl.add_left.add_left
  refine .bind (does_builds hs₂ hb ?_)
  intro w₃ hs₃ h₃
  let glue : Glue := ⟨v, c.label, w.arena.size, w₁.arena.size, n, m, w₃.arena.size⟩
  let guard : Guard := ⟨glue, r⟩
  refine .bind (does_builds hs₃ (newHook_builds (t := guard.test) (u := guard.undefined) (v := c)
    (R := (plug (g :: K) (placeholder i)).entries none + R) (h₃.of_eq ?_)
    (labels_root none c).add_right.add_left.add_left) ?_)
  · simp only [guard, glue, Guard.test, Guard.undefined]
    abel
  · intro w₄ hs₄ h₄
    rw [add_left_comm] at h₄
    refine .bind (does_leaves hs₄ (replaceWith_leaves h₄) ?_)
    intro w₅ hs₅ h₅
    exact does_pure (hQ glue w₅ rfl hs₅ h₅)

/-- How a chain stands that is lowered but for its last links. -/
structure Stands (w₀ : Work σ) (K : Context) (f : Frame) (M : Context) (R : Entries) (d : Lowering)
    (ks : List Link) (w : Work σ) : Prop where
  since : Since w₀ d.temps w
  holds : ∃ ps : List NodeId, w.arena.Holds
    ((plug (d.guards.reverse.map Guard.frame ++ K ++ f.declaring d.temps :: M)
      (tower d.rest ks)).entries none + (entriesAll none (ps.map placeholder) + R))

theorem endsSegment_links {zs : List Link} (hz : Flagged zs) (hend : endsChain K = true) :
    endsSegment (zs.map Link.frame ++ K) = true := by
  cases zs with
  | nil => rw [List.map_nil, List.nil_append, endsSegment, hend, Bool.true_or]
  | cons z zs =>
    have : z.label.chainStart = true := hz z rfl
    simp [endsSegment, Link.frame, this]

theorem endsSegment_guards {gs : List Guard} {zs : List Link} (hz : Flagged zs)
    (hend : endsChain K = true) (hK : K ≠ []) :
    endsSegment (zs.map Link.frame ++ (gs.map Guard.frame ++ K ++ M)) = true := by
  refine endsSegment_links hz ?_
  cases gs with
  | cons g gs => rfl
  | nil =>
    obtain ⟨k, K, rfl⟩ := List.exists_cons_of_ne_nil hK
    exact hend

/-! ## The two halves of a segment -/

/-- Takes the marks of a segment away and its chain out of its place. -/
def openGuard (p : Place) (last : Ref) : Lower σ NodeId := do
  makePlain last
  let standIn ← build (·.newEmpty)
  edit (·.replaceWith p.chain standIn)
  return standIn

/-- Keeps the receiver and puts a guard into the place. -/
def finishGuard (p : Place) (start : NodeId) (receiver : Ref) (standIn : NodeId) :
    Lower σ NodeId := do
  let kept ← splitReceiver p start receiver
  let null ← build (·.newNull p.chain)
  let isNullish ← build (·.newEq kept null p.chain)
  let undefined ← build (·.newUndefined p.chain)
  let guard ← build (·.newHook isNullish undefined p.chain p.chain)
  edit (·.replaceWith standIn guard)
  return guard

theorem guardSegment_run {start last : NodeId}
    (hreceiver : w.arena.isChain (w.arena.firstChild (some start)) = false)
    (hlast : w.arena.segmentEnd? (some start) = some last) : (guardSegment p start).run w =
      (openGuard p (some last) >>=
        finishGuard p start (w.arena.firstChild (some start))).run w := by
  have harena : (arena : Lower σ Arena).run w = (.ok w.arena, w) := rfl
  rw [guardSegment, run_bind harena]
  simp only [hreceiver, hlast, openGuard, finishGuard, bind_assoc, pure_bind,
    Bool.false_eq_true, ite_false]

theorem openGuard_does {x : Grown} {us zs : List Link} {Q : NodeId → Work σ → Prop} {g : Frame}
    (hsince : Since w₀ xs w) (hchain : p.chain = some (tower x (s :: us ++ zs)).id)
    (hs : s.label.chainStart = true) (hc : Linked (s :: us)) (hu : Unmarked us)
    (h : w.arena.Holds ((plug (g :: L) (tower x (s :: us ++ zs))).entries none + R))
    (hQ : ∀ (i : NodeId) (w' : Work σ), Since w₀ xs w' →
      w'.arena.Holds ((plug (g :: L) (placeholder i)).entries none +
        ((plug (s.plain.frame :: (us.map Link.plain ++ zs).map Link.frame) x).entries none + R)) →
          Q i w') :
    Does (openGuard p (some (tower x (s :: us)).id)) w Q := by
  rw [tower_append, plug_tower] at h
  refine .bind (makePlain_segment hs hc hu h ?_)
  intro a ha hfa
  have hplain : plug (zs.map Link.frame ++ g :: L) (tower x ((s :: us).map Link.plain)) =
      plug (g :: L) (plug (s.plain.frame :: (us.map Link.plain ++ zs).map Link.frame) x) := by
    rw [← plug_tower, ← tower_append]
    rfl
  have hid : p.chain =
      some (plug (s.plain.frame :: (us.map Link.plain ++ zs).map Link.frame) x).id := by
    rw [hchain, id_tower_opened]
  rw [hplain] at ha
  have hs₁ := hsince.arena hfa
  refine .bind (does_builds hs₁ (newEmpty_builds ha) ?_)
  intro w₂ hs₂ h₂
  rw [add_left_comm] at h₂
  exact .bind (does_leaves hs₂ (hid ▸ replaceWith_leaves h₂) fun w₃ hs₃ h₃ =>
    does_pure (hQ a.size w₃ hs₃ h₃))

theorem finishGuard_does {i : NodeId} {g : Frame} {G : Context} {Q : NodeId → Work σ → Prop}
    (hsince : Since w₀ xs w) (hp : p.statement = (plug (g :: G) (placeholder i)).id)
    (hchain : p.chain = some (plug (s.plain.frame :: C) e).id)
    (hget : e.label.kind.isGet = true → s.label.plain.kind = .call → e.children ≠ [])
    (h : w.arena.Holds ((plug (g :: G ++ f.declaring xs :: M) (placeholder i)).entries none +
      ((plug (s.plain.frame :: C) e).entries none + R)))
    (hQ : ∀ (glue : Glue) (ps : List NodeId) (w' : Work σ),
      Since w₀ (xs ++ (split glue.saved s e).temps) w' →
      w'.arena.Holds ((plug (Guard.frame ⟨glue, (split glue.saved s e).receiver⟩ ::
        (g :: G ++ f.declaring (xs ++ (split glue.saved s e).temps) :: M))
          (plug C (split glue.saved s e).rest)).entries none +
            (entriesAll none (ps.map placeholder) + R)) → Q glue.hook w') :
    Does (finishGuard p s.id (some e.id) i) w Q := by
  refine .bind (splitReceiver_does hsince hp hget h ?_)
  intro v ps w₁ hs₁ h₁
  have hrest : p.chain = some (plug C (split v s e).rest).id := by
    rw [hchain, plug_cons]
    exact congrArg some (id_plug_congr C (id_rest_split v s e).symm)
  rw [hrest]
  refine closeGuard_does v hs₁ h₁ ?_
  intro glue w₂ hglue hs₂ h₂
  subst hglue
  refine hQ glue (i :: ps) w₂ hs₂ (h₂.of_eq ?_)
  rw [List.map_cons, entriesAll_cons, add_assoc]
  rfl

theorem guardSegment_does {d : Lowering} {us zs : List Link}
    {Q : NodeId → Work σ → Prop} (hK : K ≠ []) (hend : endsChain K = true)
    (hp : ∀ t, p.statement = (plug K t).id)
    (hchain : p.chain = some (tower d.rest (s :: us ++ zs)).id) (hs : s.label.chainStart = true)
    (hc : Linked (s :: us ++ zs)) (hu : Unmarked us) (hz : Flagged zs)
    (hrest : d.rest.label.kind.isChain = false)
    (hget : d.rest.label.kind.isGet = true → s.label.plain.kind = .call → d.rest.children ≠ [])
    (h : Stands w₀ K f M R d (s :: us ++ zs) w) (hQ : ∀ (g : Glue) (w' : Work σ), Stands w₀ K f M R
      { d.cut g s with rest := tower (d.cut g s).rest (us.map Link.plain) } zs w' → Q g.hook w') :
    Does (guardSegment p s.id) w Q := by
  obtain ⟨hsince, ps, hold⟩ := h
  obtain ⟨g, G, hG⟩ : ∃ g G, d.guards.reverse.map Guard.frame ++ K = g :: G :=
    List.exists_cons_of_ne_nil (by simp [hK])
  have hp' : ∀ t, p.statement = (plug (g :: G) t).id := by
    intro t
    rw [← hG, plug_append]
    exact hp _
  have hc' : Linked (s :: us) := fun k hk => hc k (List.mem_append_left _ hk)
  have hends : endsSegment (zs.map Link.frame ++ (g :: G ++ f.declaring d.temps :: M)) = true :=
    hG ▸ endsSegment_guards hz hend hK
  rw [hG] at hold
  -- the same store, told from the segment and then from its lowest link
  have h₀ : w.arena.Holds ((plug (zs.map Link.frame ++ (g :: G ++ f.declaring d.temps :: M))
      (tower d.rest (s :: us))).entries none + (entriesAll none (ps.map placeholder) + R)) := by
    rw [← plug_tower, ← tower_append]
    exact hold
  have h₁ : w.arena.Holds ((plug (s.frame :: (us.map Link.frame ++ (zs.map Link.frame ++
      (g :: G ++ f.declaring d.temps :: M)))) d.rest).entries none +
        (entriesAll none (ps.map placeholder) + R)) := by
    rw [plug_tower] at h₀
    exact h₀
  have hfirst : w.arena.firstChild (some s.id) = some d.rest.id := firstChild_owner h₁ rfl
  have hreceiver : w.arena.isChain (w.arena.firstChild (some s.id)) = false := by
    rw [hfirst]
    exact (isChain_hole h₁).trans hrest
  refine .congr (guardSegment_run hreceiver (segmentEnd?_tower hc' hu hends h₀)) (.bind ?_)
  refine openGuard_does hsince hchain hs hc' hu hold ?_
  intro i w₁ hs₁ h₂
  rw [hfirst]
  refine finishGuard_does (C := (us.map Link.plain ++ zs).map Link.frame) hs₁ (hp' _) ?_ hget h₂ ?_
  · rw [hchain, id_tower_opened]
  · intro glue qs w₂ hs₂ h₃
    refine hQ glue w₂ ⟨hs₂, qs ++ ps, h₃.of_eq ?_⟩
    let guard : Guard := ⟨glue, (split glue.saved s d.rest).receiver⟩
    have hframes : (d.guards ++ [guard]).reverse.map Guard.frame ++ K = guard.frame :: g :: G := by
      simp [← hG]
    have hcut : tower (tower (split glue.saved s d.rest).rest (us.map Link.plain)) zs =
        plug ((us.map Link.plain ++ zs).map Link.frame) (split glue.saved s d.rest).rest :=
        (tower_append ..).symm
    change _ = (plug ((d.guards ++ [guard]).reverse.map Guard.frame ++ K ++
      f.declaring (d.temps ++ (split glue.saved s d.rest).temps) :: M)
        (tower (tower (split glue.saved s d.rest).rest (us.map Link.plain)) zs)).entries none + _
    have hps : entriesAll none ((qs ++ ps).map placeholder) =
        entriesAll none (qs.map placeholder) + entriesAll none (ps.map placeholder) := by
      rw [List.map_append, entriesAll_append]
    rw [hframes, hcut, hps, add_assoc]
    rfl

end Lower

end ChainLowering
