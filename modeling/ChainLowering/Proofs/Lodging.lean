import ChainLowering.Proofs.Parts
import ChainLowering.Proofs.Whole

/-!
# Where the temporaries of lowered chains stand

A temporary is kept and read inside the statement that its chain stands in,
and no function and no block comes in between. What is found in a tree before
a chain around it is lowered is found in it after that.
-/

namespace ChainLowering

/-- Nodes of this kind do not begin a body of their own. -/
def Kind.isInner (k : Kind) : Bool := !k.ownsStatements && k != .function

namespace Grown

/-- One of the trees `P` is reached through nodes of the kinds `Q`. -/
inductive Lodged (Q : Kind → Bool) (P : Grown → Prop) : Grown → Prop
  | here {t : Grown} (h : P t) : Lodged Q P t
  | under {i : NodeId} {l : Label} {t : Grown} {ts : List Grown} (hQ : Q l.kind = true)
      (ht : t ∈ ts) (h : Lodged Q P t) :
      Lodged Q P (node i l ts)

/-- The trees `P` are still found where an access is given another object that keeps the old one. -/
structure Firm (Q : Kind → Bool) (P : Grown → Prop) : Prop where
  inner : ∀ k, k.isInner = true → Q k = true
  keep : ∀ {j : NodeId} {m : Label} {o : Grown} {keys : List Grown} (y : Temp),
    m.kind.isGet = true → P (node j m (o :: keys)) → Lodged Q P (node j m (y.keep o :: keys))

/-- `x = e` -/
def Keeps (x : Temp) (s : Grown) : Prop := ∃ e, s = x.keep e

/-- A read of a temporary, as a part of a link or as a value that is kept. -/
def Uses (x : Temp) (s : Grown) : Prop :=
  x.use ∈ s.children ∧ s.label.kind.isLink = true ∨ ∃ y : Temp, s = y.keep x.use

variable {order : List NodeId} {choice : NodeId → Choice} {Q : Kind → Bool} {P : Grown → Prop}
    {i : NodeId} {l : Label}
  {t u x e : Grown} {ts : List Grown} {k : Link} {ks : List Link} {d : Lowering} {f : Frame}

theorem isInner_of_isLink {k : Kind} (h : k.isLink = true) : k.isInner = true := by
  revert h
  cases k <;> decide

namespace Firm

variable (hP : Firm Q P)
include hP

theorem link (hl : l.kind.isLink = true) (ht : t ∈ ts) (h : Lodged Q P t) :
    Lodged Q P (node i l ts) :=
  .under (hP.inner _ (isInner_of_isLink hl)) ht h

theorem lodged_keep (y : Temp) (h : Lodged Q P t) : Lodged Q P (y.keep t) :=
  .under (hP.inner _ rfl) (by simp) h

theorem lodged_get {j : NodeId} {m : Label} {o : Grown} {keys : List Grown} (y : Temp)
    (hm : m.kind.isGet = true) (h : Lodged Q P (node j m (o :: keys))) :
    Lodged Q P (node j m (y.keep o :: keys)) := by
  generalize hs : node j m (o :: keys) = s at h
  cases h with
  | here h =>
    subst hs
    exact hP.keep y hm h
  | under hQ ht h =>
    obtain ⟨rfl, rfl, rfl⟩ := Grown.node.inj hs
    rcases List.mem_cons.mp ht with rfl | ht
    · exact .under hQ List.mem_cons_self (hP.lodged_keep y h)
    · exact .under hQ (List.mem_cons_of_mem _ ht) h

theorem lodged_receiver (v : Saved) (h : Lodged Q P e) : Lodged Q P (split v k e).receiver := by
  obtain hs | ⟨j, m, o, keys, rfl, hm, -, hs⟩ := split_cases v k e
  · rw [hs]
    exact hP.lodged_keep _ h
  · rw [hs]
    exact hP.lodged_keep _ (hP.lodged_get _ hm h)

theorem lodged_rest (v : Saved) (hk : k.label.kind.isChain = true) (hu : u ∈ k.args)
    (h : Lodged Q P u) :
    Lodged Q P (split v k e).rest := by
  obtain hs | ⟨j, m, o, keys, -, -, -, hs⟩ := split_cases v k e
  · rw [hs]
    exact hP.link (isLink_plain hk) (List.mem_cons_of_mem _ hu) h
  · rw [hs]
    exact hP.link (isLink_plain hk) (List.mem_cons_of_mem _ (List.mem_cons_of_mem _ hu)) h

end Firm

theorem not_isGet_keeps {x : Temp} (h : Keeps x t) : t.label.kind.isGet = false := by
  obtain ⟨e, rfl⟩ := h
  rfl

theorem firm_of_other (hQ : ∀ k, k.isInner = true → Q k = true) (h : ∀ t, P t →
    t.label.kind.isGet = false) : Firm Q P :=
  ⟨hQ, fun _ hm hP => absurd (hm.symm.trans (h _ hP)) Bool.noConfusion⟩

theorem firm_keeps (x : Temp) : Firm Kind.isInner (Keeps x) :=
  firm_of_other (fun _ h => h) fun _ => not_isGet_keeps

theorem firm_uses (x : Temp) : Firm Kind.isInner (Uses x) := by
  refine ⟨fun _ h => h, fun y hm h => ?_⟩
  rcases h with ⟨hx, hl⟩ | ⟨z, hz⟩
  · rcases List.mem_cons.mp hx with rfl | hx
    · exact .under (isInner_of_isLink hl) List.mem_cons_self (.here (.inr ⟨y, rfl⟩))
    · exact .here (.inl ⟨List.mem_cons_of_mem _ hx, hl⟩)
  · obtain ⟨-, rfl, -⟩ := Grown.node.inj hz
    cases hm

/-! ## A chain that is being lowered -/

namespace Lowering

/-- One of the trees `P` is found in the parts of a chain. -/
def Lodges (Q : Kind → Bool) (P : Grown → Prop) (d : Lowering) : Prop :=
  (∃ g ∈ d.guards, Lodged Q P g.receiver) ∨ Lodged Q P d.rest

theorem Lodges.cut (hP : Firm Q P) (g : Glue) (h : d.Lodges Q P) : (d.cut g k).Lodges Q P := by
  rcases h with ⟨g', hg', h⟩ | h
  · exact .inl ⟨g', List.mem_append_left _ hg', h⟩
  · exact .inl ⟨_, List.mem_append_right _ (List.mem_singleton_self _), hP.lodged_receiver _ h⟩

theorem Lodges.step (hP : Firm Q P) (glue : NodeId → Glue) (hk : k.label.kind.isChain = true)
    (h : d.Lodges Q P) : (step glue d k).Lodges Q P := by
  rw [Lowering.step]
  split_ifs
  · exact h.cut hP _
  · exact h.imp_right fun h => hP.link (isLink_plain hk) List.mem_cons_self h

theorem lodges_args (hP : Firm Q P) (glue : NodeId → Glue) (hk : k.label.kind.isChain = true)
    (hu : u ∈ k.args) (h : Lodged Q P u) : (step glue d k).Lodges Q P := by
  rw [step]
  split_ifs
  · exact .inr (hP.lodged_rest _ hk hu h)
  · exact .inr (hP.link (isLink_plain hk) (List.mem_cons_of_mem _ hu) h)

theorem lodges_foldl (hP : Firm Q P) (glue : NodeId → Glue) (hk : Linked ks)
    (h : d.Lodges Q P ∨ ∃ k ∈ ks, ∃ u ∈ k.args, Lodged Q P u) :
    (ks.foldl (step glue) d).Lodges Q P := by
  induction ks generalizing d with
  | nil => exact h.resolve_right fun ⟨_, hk, _⟩ => nomatch hk
  | cons k ks ih =>
    refine ih (fun j hj => hk j (List.mem_cons_of_mem _ hj)) ?_
    rcases h with h | ⟨j, hj, u, hu, h⟩
    · exact .inl (h.step hP glue (hk k List.mem_cons_self))
    · rcases List.mem_cons.mp hj with rfl | hj
      · exact .inl (lodges_args hP glue (hk _ List.mem_cons_self) hu h)
      · exact .inr ⟨j, hj, u, hu, h⟩

/-- A temporary is kept and read in the parts of a chain. -/
def Places (d : Lowering) (x : Temp) : Prop :=
  d.Lodges Kind.isInner (Keeps x) ∧ d.Lodges Kind.isInner (Uses x)

theorem places_cut (g : Glue) (hk : k.label.kind.isChain = true) {x : Temp}
    (hx : x ∈ (split g.saved k d.rest).temps) : (d.cut g k).Places x := by
  have hl := isLink_plain hk
  have hleft : ∀ {P}, Lodged Kind.isInner P (split g.saved k d.rest).receiver →
      (d.cut g k).Lodges Kind.isInner P :=
    fun h => .inl ⟨_, List.mem_append_right _ (List.mem_singleton_self _), h⟩
  have hright : ∀ {P}, Lodged Kind.isInner P (split g.saved k d.rest).rest →
      (d.cut g k).Lodges Kind.isInner P := .inr
  obtain hs | ⟨j, m, o, keys, -, hm, -, hs⟩ := split_cases g.saved k d.rest
  · rw [hs] at hx hleft hright
    obtain rfl := List.mem_singleton.mp hx
    exact ⟨hleft (.here ⟨_, rfl⟩), hright (.here (.inl ⟨List.mem_cons_self, hl⟩))⟩
  · rw [hs] at hx hleft hright
    rcases List.mem_cons.mp hx with rfl | hx
    · refine ⟨hleft ((firm_keeps _).lodged_keep _ ?_), hright (.here (.inl ⟨?_, hl⟩))⟩
      · exact .under (isInner_of_isLink (Tree.isLink_of_isGet hm))
          List.mem_cons_self (.here ⟨_, rfl⟩)
      · exact List.mem_cons_of_mem _ List.mem_cons_self
    · obtain rfl := List.mem_singleton.mp hx
      refine ⟨hleft (.here ⟨_, rfl⟩),
        hright (.under (isInner_of_isLink hl) List.mem_cons_self (.here (.inl ⟨?_, rfl⟩)))⟩
      exact List.mem_cons_self

theorem Places.step (glue : NodeId → Glue) (hk : k.label.kind.isChain = true) {x : Temp}
    (h : d.Places x) : (step glue d k).Places x :=
  ⟨h.1.step (firm_keeps x) glue hk, h.2.step (firm_uses x) glue hk⟩

theorem places_step (glue : NodeId → Glue) (hk : k.label.kind.isChain = true)
    (h : ∀ x ∈ d.temps, d.Places x) :
    ∀ x ∈ (step glue d k).temps, (step glue d k).Places x := by
  intro x hx
  by_cases hm : k.label.chainStart = true
  · rw [step, if_pos hm] at hx
    rcases List.mem_append.mp hx with hx | hx
    · exact (h x hx).step glue hk
    · rw [step, if_pos hm]
      exact places_cut _ hk hx
  · rw [step, if_neg hm] at hx
    exact (h x hx).step glue hk

theorem places_foldl (glue : NodeId → Glue) (hk : Linked ks) (h : ∀ x ∈ d.temps, d.Places x) :
    ∀ x ∈ (ks.foldl (step glue) d).temps, (ks.foldl (step glue) d).Places x := by
  induction ks generalizing d with
  | nil => exact h
  | cons k ks ih =>
    exact ih (fun j hj => hk j (List.mem_cons_of_mem _ hj))
      (places_step glue (hk k List.mem_cons_self) h)

theorem Lodges.close (hP : Firm Q P) (h : d.Lodges Q P) : Lodged Q P d.close := by
  obtain ⟨xs, gs, e⟩ := d
  induction gs with
  | nil => exact h.resolve_left fun ⟨_, hg, _⟩ => nomatch hg
  | cons g gs ih =>
    rw [close_cons]
    have hhook : Q Kind.hook = true := hP.inner _ rfl
    rcases h with ⟨g', hg', h⟩ | h
    · rcases List.mem_cons.mp hg' with rfl | hg'
      · refine .under (t := g'.test) hhook (by simp [Guard.frame]) ?_
        exact .under (hP.inner _ rfl) List.mem_cons_self h
      · exact .under hhook (by simp [Guard.frame]) (ih (.inl ⟨g', hg', h⟩))
    · exact .under hhook (by simp [Guard.frame]) (ih (.inr h))

theorem Lodges.keep {xs : List Temp} {gs : List Guard} {j : NodeId} {m : Label} {o : Grown}
    {keys : List Grown} (y : Temp) (hP : Firm Q P) (hm : m.kind.isGet = true)
    (h : Lodges Q P ⟨xs, gs, node j m (o :: keys)⟩) :
    Lodges Q P ⟨xs, gs, node j m (y.keep o :: keys)⟩ :=
  h.imp_right fun h => hP.lodged_get y hm h

theorem mem_declared {y z : Temp} :
    z ∈ d.declared y f ↔ z ∈ d.temps ∨ d.isCalled f = true ∧ z = y := by
  rw [declared]
  split_ifs with h <;> simp [h]

theorem lodged_placed (hP : Firm Q P) (hQ : Q f.label.kind = true) (y : Temp)
    (dot : NodeId) (src : Label) (h : d.Lodges Q P ∨ ∃ u ∈ f.right, Lodged Q P u) :
    Lodged Q P (d.placed y dot src f) := by
  have hfill : ∀ {i l t} {us : List Grown}, Q l.kind = true →
    Lodged Q P t ∨ (∃ u ∈ f.right, Lodged Q P u) →
      Lodged Q P (node i l (us ++ t :: f.right)) := by
    intro i l t us hQ h
    rcases h with h | ⟨u, hu, h⟩
    · exact .under hQ (by simp) h
    · exact .under hQ (by simp [hu]) h
  rw [placed]
  split_ifs with hc
  · simp only [isCalled, Bool.and_eq_true, decide_eq_true_eq] at hc
    obtain ⟨xs, gs, ⟨j, m, _ | ⟨o, keys⟩⟩⟩ := d
    · exact @hfill _ _ _ [] hQ (h.imp_left fun h => h.close hP)
    · rcases h with h | ⟨u, hu, h⟩
      · exact .under hQ List.mem_cons_self
          (hP.link rfl (List.mem_singleton_self _) ((h.keep y hP hc.2).close hP))
      · exact .under hQ (List.mem_cons_of_mem _ (List.mem_cons_of_mem _ hu)) h
  · exact hfill hQ (h.imp_left fun h => h.close hP)

theorem places_placed (hr : Receivable d.rest) (hc : d.isCalled f = true) (y : Temp) (dot : NodeId)
    (src : Label) :
    Lodged Kind.isInner (Keeps y) (d.placed y dot src f) ∧
      Lodged Kind.isInner (Uses y) (d.placed y dot src f) := by
  rw [placed, if_pos hc]
  simp only [isCalled, Bool.and_eq_true, decide_eq_true_eq] at hc
  have hcall : f.label.kind.isLink = true := by rw [hc.1.1]; rfl
  obtain ⟨xs, gs, ⟨j, m, _ | ⟨o, keys⟩⟩⟩ := d
  · exact absurd rfl (hr.2 hc.2)
  · refine ⟨(firm_keeps y).link hcall List.mem_cons_self
      ((firm_keeps y).link rfl (List.mem_singleton_self _) ?_), ?_⟩
    · exact Lodges.close (firm_keeps y)
        (.inr ((firm_keeps y).link (Tree.isLink_of_isGet hc.2) List.mem_cons_self (.here ⟨o, rfl⟩)))
    · exact .here (.inl ⟨List.mem_cons_of_mem _ List.mem_cons_self, hcall⟩)

end Lowering

/-! ## Temporaries that are declared -/

/-- A statement with the declaration of a temporary among those before it,
where `R` tells what the statement was before and `T` which temporaries there are. -/
structure Row (R : NodeId → NodeId → Prop) (T : Temp → Prop) (x : Temp) (t s : Grown) : Prop where
  owner : s.label.kind.ownsStatements = true
  children : ∃ (before : List Grown) (lets : List Temp) (after : List Grown),
    s.children = before ++ x.declaration :: (lets.map Temp.declaration ++ t :: after) ∧
    ∀ y ∈ lets, T y
  original : R s.id t.id
  kept : Lodged Kind.isInner (Keeps x) t
  read : Lodged Kind.isInner (Uses x) t

/-- Where the temporary of a chain is, in a tree that tells where trees are found in it. -/
def Due.Placed (R : NodeId → NodeId → Prop) (T : Temp → Prop) (L : (Kind → Bool) → (Grown → Prop) →
    Prop) (d : Due) : Prop :=
  if d.pending then L Kind.isInner (Keeps d.temp) ∧ L Kind.isInner (Uses d.temp)
  else L (fun _ => true) fun s => ∃ t, Row R T d.temp t s

variable {R : NodeId → NodeId → Prop} {T : Temp → Prop} {due : Due}

theorem firm_row {x : Temp} : Firm (fun _ => true) fun s => ∃ t, Row R T x t s := by
  refine firm_of_other (fun _ _ => rfl) ?_
  rintro s ⟨t, h⟩
  have := h.owner
  revert this
  cases s.label.kind <;> decide

theorem Due.placed_pending {L : (Kind → Bool) → (Grown → Prop) → Prop} (hd : due.pending = true)
    (hkept : L Kind.isInner (Keeps due.temp)) (hread : L Kind.isInner (Uses due.temp)) :
    due.Placed R T L := by
  rw [Placed, if_pos hd]
  exact ⟨hkept, hread⟩

theorem Due.Placed.over {k : Kind} {L M : (Kind → Bool) → (Grown → Prop) → Prop}
    (h : due.Placed R T L) (hk : due.pending = true → k.isInner = true) (hLM : ∀ {Q P}, Firm Q P →
      Q k = true → L Q P → M Q P) : due.Placed R T M := by
  unfold Placed at h ⊢
  split_ifs at h ⊢ with hd
  · exact ⟨hLM (firm_keeps _) (hk hd) h.1, hLM (firm_uses _) (hk hd) h.2⟩
  · exact hLM firm_row rfl h

theorem Due.Placed.mono {L M : (Kind → Bool) → (Grown → Prop) → Prop} (h : due.Placed R T L)
    (hLM : ∀ {Q P}, Firm Q P → L Q P → M Q P) : due.Placed R T M :=
  h.over (k := .hook) (fun _ => rfl) fun hP _ => hLM hP

/-- One of the trees `P` is found in a tree that may go on. -/
def Peeled.Lodges (p : Peeled) (Q : Kind → Bool) (P : Grown → Prop) : Prop :=
  Lodged Q P p.base ∨ ∃ k ∈ p.links, ∃ u ∈ k.args, Lodged Q P u

def Peeled.Placed (order : List NodeId) (R : NodeId → NodeId → Prop) (T : Temp → Prop)
    (p : Peeled) : Prop :=
  ∀ d ∈ p.dues, d.chain ∈ order ∧ d.Placed R T p.Lodges

def Closed.Placed (order : List NodeId) (R : NodeId → NodeId → Prop) (T : Temp → Prop)
    (c : Closed) : Prop :=
  ∀ d ∈ c.dues, d.chain ∈ order ∧ d.Placed R T fun Q P => Lodged Q P c.tree

theorem Peeled.Lodges.lowering {p : Peeled} (hP : Firm Q P) (hk : Linked p.links)
    (h : p.Lodges Q P) : (p.lowering choice).Lodges Q P :=
  Lowering.lodges_foldl hP _ hk (h.imp_left .inr)

theorem Peeled.Lodges.tree {p : Peeled} (hP : Firm Q P) (hk : Linked p.links) (h : p.Lodges Q P) :
    Lodged Q P p.tree := by
  obtain ⟨ds, x, ks⟩ := p
  induction ks using List.reverseRecOn with
  | nil => exact h.resolve_right fun ⟨_, hk, _⟩ => nomatch hk
  | append_singleton ks k ih =>
    have hl := hk k (by simp)
    have ih := ih fun j hj => hk j (List.mem_append_left _ hj)
    rw [Peeled.tree, tower_snoc]
    rcases h with h | ⟨j, hj, u, hu, h⟩
    · exact hP.link (Tree.isChain_of_isLink hl) List.mem_cons_self (ih (.inl h))
    · rcases List.mem_append.mp hj with hj | hj
      · exact hP.link (Tree.isChain_of_isLink hl) List.mem_cons_self (ih (.inr ⟨j, hj, u, hu, h⟩))
      · obtain rfl := List.mem_singleton.mp hj
        exact hP.link (Tree.isChain_of_isLink hl) (List.mem_cons_of_mem _ hu) h

theorem places_lowering {p : Peeled} (hk : Linked p.links) {x : Temp}
    (hx : x ∈ (p.lowering choice).temps) : (p.lowering choice).Places x :=
  Lowering.places_foldl _ hk (by simp) x hx

theorem Peeled.Placed.close {p : Peeled} (choice : NodeId → Choice) (hk : Linked p.links)
    (h : p.Placed order R T) : (p.close order choice).Placed order R T := by
  rw [Peeled.close]
  split_ifs with hd
  · have hc : p.tree.id ∈ order := by
      rw [isDue, Bool.and_eq_true] at hd
      simpa using hd.2
    intro d hmem
    rcases List.mem_append.mp hmem with hmem | hmem
    · exact ⟨(h d hmem).1, (h d hmem).2.mono fun hP hL => (hL.lowering hP hk).close hP⟩
    · obtain ⟨x, hx, rfl⟩ := List.mem_map.mp hmem
      obtain ⟨hkept, hread⟩ := places_lowering hk hx
      exact ⟨hc, Due.placed_pending rfl (hkept.close (firm_keeps x)) (hread.close (firm_uses x))⟩
  · exact fun d hmem => ⟨(h d hmem).1, (h d hmem).2.mono fun hP hL => hL.tree hP hk⟩

theorem lodged_under {p : Peeled} (hP : Firm Q P) (hQ : Q f.label.kind = true) (hu : u ∈ f.right)
    (h : Lodged Q P u) :
    Lodged Q P (p.under order choice f).tree := by
  rw [Peeled.under]
  split_ifs
  · exact Lowering.lodged_placed hP hQ _ _ _ (.inr ⟨u, hu, h⟩)
  · exact .under hQ (List.mem_append_right _ (List.mem_cons_of_mem _ hu)) h

theorem Peeled.Placed.under {p : Peeled} (choice : NodeId → Choice) (hk : Linked p.links)
    (hf : ∀ d ∈ (p.under order choice f).dues, d.pending = true → f.label.kind.isInner = true)
    (h : p.Placed order R T) : (p.under order choice f).Placed order R T := by
  rw [Peeled.under] at hf ⊢
  split_ifs at hf ⊢ with hd
  · rw [isDue, Bool.and_eq_true] at hd
    have hc : p.tree.id ∈ order := by simpa using hd.2
    have hne : p.links ≠ [] := by simpa using hd.1
    intro d hmem
    have hinner := hf d hmem
    rcases List.mem_append.mp hmem with hmem | hmem
    · refine ⟨(h d hmem).1, (h d hmem).2.over hinner fun hP hQ hL => ?_⟩
      exact Lowering.lodged_placed hP hQ _ _ _ (.inl (hL.lowering hP hk))
    · obtain ⟨x, hx', rfl⟩ := List.mem_map.mp hmem
      have hinner : f.label.kind.isInner = true := hinner rfl
      let w := (p.lowering choice).placed (choice p.tree.id).this (choice p.tree.id).dot
        (choice p.tree.id).src f
      suffices Lodged Kind.isInner (Keeps x) w ∧ Lodged Kind.isInner (Uses x) w from
        ⟨hc, Due.placed_pending rfl this.1 this.2⟩
      rcases Lowering.mem_declared.mp hx' with hx' | ⟨hcalled, rfl⟩
      · obtain ⟨hkept, hread⟩ := places_lowering hk hx'
        exact ⟨Lowering.lodged_placed (firm_keeps x) hinner _ _ _ (.inl hkept),
          Lowering.lodged_placed (firm_uses x) hinner _ _ _ (.inl hread)⟩
      · exact Lowering.places_placed (receivable_lower _ _ hne) hcalled _ _ _
  · refine fun d hmem => ⟨(h d hmem).1, (h d hmem).2.over (hf d hmem) fun hP hQ hL => ?_⟩
    exact .under hQ (by simp) (hL.tree hP hk)

theorem Closed.Placed.row {c : Closed} (left right : List Grown) (hl : l.kind.ownsStatements = true)
    (hc : R i c.tree.id) (hT : ∀ d ∈ c.dues, T d.temp) (h : c.Placed order R T) :
    ∀ d ∈ c.dues, d.chain ∈ order ∧ d.declared.Placed R T fun Q P =>
      Lodged Q P (node i l (left ++ c.statement order ++ right)) := by
  intro d hd
  obtain ⟨hchain, hd'⟩ := h d hd
  refine ⟨hchain, ?_⟩
  have hmem : c.tree ∈ left ++ c.statement order ++ right := by simp [Closed.statement]
  unfold Due.Placed at hd' ⊢
  rw [if_neg (by simp [Due.declared])]
  split_ifs at hd' with hp
  · have howed : d.temp ∈ order.flatMap (Due.owed c.dues) := by
      refine List.mem_flatMap.mpr
        ⟨d.chain, hchain, List.mem_map.mpr ⟨d, List.mem_filter.mpr ⟨hd, ?_⟩, rfl⟩⟩
      simp [hp]
    obtain ⟨before, after, hsplit⟩ := List.append_of_mem howed
    refine .here ⟨c.tree, hl, ⟨left ++ before.map Temp.declaration, after, right, ?_, ?_⟩,
      hc, hd'.1, hd'.2⟩
    · simp [Closed.statement, hsplit, Due.declared]
    · intro y hy
      have hy : y ∈ order.flatMap (Due.owed c.dues) :=
        hsplit ▸ List.mem_append_right _ (List.mem_cons_of_mem _ hy)
      obtain ⟨k, -, hy⟩ := List.mem_flatMap.mp hy
      obtain ⟨e, he, rfl⟩ := List.mem_map.mp hy
      exact hT e (List.mem_of_mem_filter he)
  · exact .under rfl hmem hd'

/-! ## Functions -/

theorem Is.peel_leaf (h : t.Is .name ∨ t.Is .unnamed) :
    (peel order choice t).dues = [] ∧ (whole order choice t).dues = [] := by
  obtain ⟨i, l, ts⟩ := t
  obtain rfl : ts = [] := Is.children_eq_nil h
  exact ⟨rfl, by rw [whole_leaf]⟩

theorem Is.dues_parameters (h : t.Is .parameters) : (whole order choice t).dues = [] := by
  obtain ⟨i, l, ts⟩ := t
  have hl : l.kind = .paramList := h.label_kind rfl
  rw [whole_calm (.of_ne (by rw [hl]; rfl) (by rw [hl]; rfl) (by rw [hl]; exact Kind.noConfusion))]
  exact List.flatMap_eq_nil_iff.mpr fun u hu => (Is.peel_leaf (.inl (h.of_parameters hu))).2

theorem Is.dues_block (h : t.Is .block) : ∀ d ∈ (whole order choice t).dues, d.pending = false := by
  obtain ⟨i, l, ts⟩ := t
  have hl : l.kind = .block := h.label_kind rfl
  rw [whole_owner i ts (by rw [hl]; rfl)]
  intro d hd
  obtain ⟨d, -, rfl⟩ := List.mem_map.mp hd
  rfl

theorem Is.dues_function {part : Part} (h : (node i l ts).Is part) (hl : l.kind = .function) :
    ∀ d ∈ (peel order choice (node i l ts)).dues, d.pending = false := by
  obtain ⟨n, p, b, rfl, hn, hp, hb⟩ := h.of_function hl
  have hcalm : Calm l [n, p, b] :=
    .of_ne (by rw [hl]; rfl) (by rw [hl]; rfl) (by rw [hl]; exact Kind.noConfusion)
  have hw : whole order choice (node i l [n, p, b]) = _ := whole_calm hcalm
  rw [whole_eq _ _ (bottom_node hcalm.chain)] at hw
  rw [(Closed.mk.inj hw).1]
  simp only [duesAll, List.flatMap_cons, List.flatMap_nil, (Is.peel_leaf hn).2, hp.dues_parameters,
    List.nil_append, List.append_nil]
  exact hb.dues_block

/-! ## All chains of a tree -/

/-- A node that owns a statement stands in a tree. -/
def Owns (t : Grown) (o s : NodeId) : Prop :=
  Lodged (fun _ => true) (fun n => n.id = o ∧ n.label.kind.ownsStatements = true ∧
    some s ∈ slots n.children) t

theorem mem_dues_close {p : Peeled} (h : due ∈ p.dues) : due ∈ (p.close order choice).dues := by
  rw [Peeled.close]
  split_ifs
  · exact List.mem_append_left _ h
  · exact h

theorem mem_dues_under {p : Peeled} (h : due ∈ p.dues) : due ∈ (p.under order choice f).dues := by
  rw [Peeled.under]
  split_ifs
  · exact List.mem_append_left _ h
  · exact h

theorem exists_due (hu : u ∈ ts) (h : due ∈ (peel order choice u).dues) :
    ∃ e ∈ (peel order choice (node i l ts)).dues, e.temp = due.temp := by
  have hw : due ∈ (whole order choice u).dues := mem_dues_close h
  by_cases ho : l.kind.ownsStatements = true
  · rw [peel_owner i ts ho]
    exact ⟨due.declared, List.mem_map_of_mem (List.mem_flatMap.mpr ⟨u, hu, hw⟩), rfl⟩
  obtain ⟨t, ts, rfl⟩ := List.exists_cons_of_ne_nil (List.ne_nil_of_mem hu)
  by_cases hl : l.kind.isChain = true
  · rw [peel_chain i t ts hl]
    rcases List.mem_cons.mp hu with rfl | hu
    · exact ⟨due, List.mem_append_left _ h, rfl⟩
    · exact ⟨due, List.mem_append_right _ (List.mem_flatMap.mpr ⟨u, hu, hw⟩), rfl⟩
  · rw [peel_under i t ts (by simpa using hl) (by simpa using ho)]
    rcases List.mem_cons.mp hu with rfl | hu
    · exact ⟨due, List.mem_append_left _ (mem_dues_under h), rfl⟩
    · exact ⟨due, List.mem_append_right _ (List.mem_flatMap.mpr ⟨u, hu, hw⟩), rfl⟩

/-- Wherever chains are lowered, their temporaries stand where they should. -/
theorem placed_peel {part : Part} (h : t.Is part) (hR : ∀ o s, t.Owns o s → R o s)
    (hT : ∀ d ∈ (peel order choice t).dues, T d.temp) : (peel order choice t).Placed order R T := by
  induction t generalizing part with
  | node i l ts ih =>
    have hTs : ∀ u ∈ ts, ∀ d ∈ (peel order choice u).dues, T d.temp := by
      intro u hu d hd
      obtain ⟨e, he, hde⟩ := exists_due hu hd
      exact hde ▸ hT e he
    have hpeel : ∀ u ∈ ts, (peel order choice u).Placed order R T := by
      intro u hu
      obtain ⟨q, hq⟩ := h.exists_part hu
      exact ih u hu hq (fun o s ho => hR o s (.under rfl hu ho)) (hTs u hu)
    have hwhole : ∀ u ∈ ts, (whole order choice u).Placed order R T :=
      fun u hu => (hpeel u hu).close choice (linked_peel u)
    -- what is pending in a statement is declared in its row, and anything else hands it on
    by_cases ho : l.kind.ownsStatements = true
    · rw [peel_owner i ts ho]
      intro d hmem
      obtain ⟨d, hd, rfl⟩ := List.mem_map.mp hmem
      obtain ⟨u, hu, hdu⟩ := List.mem_flatMap.mp hd
      obtain ⟨left, right, rfl⟩ := List.append_of_mem hu
      have hb : Bottom u := bottom_of ((h.of_owner ho hu).isChain_eq_false rfl)
      have hid : (whole order choice u).tree.id = u.id := by
        obtain ⟨us, e⟩ := exists_whole order choice hb
        rw [e]
        rfl
      have hrow :=
        (hwhole u hu).row (i := i) (left.flatMap fun u => (whole order choice u).statement order)
        (right.flatMap fun u => (whole order choice u).statement order) ho
        (hid ▸ hR i u.id (.here ⟨rfl, ho, mem_slots.mpr ⟨u, hu, rfl⟩⟩))
          (by rw [whole_eq _ _ hb]; exact hTs u hu) d hdu
      refine ⟨hrow.1, hrow.2.mono fun _ hL => .inl ?_⟩
      simpa using hL
    cases ts with
    | nil => exact fun d hd => nomatch hd
    | cons t ts =>
      by_cases hl : l.kind.isChain = true
      · rw [peel_chain i t ts hl]
        intro d hd
        -- the tower goes on with the first child, and chains end in the others
        rcases List.mem_append.mp hd with hd | hd
        · obtain ⟨hc, hd⟩ := hpeel t List.mem_cons_self d hd
          refine ⟨hc, hd.mono fun _ hL => hL.imp_right ?_⟩
          rintro ⟨k, hk, hL⟩
          exact ⟨k, List.mem_append_left _ hk, hL⟩
        · obtain ⟨u, hu, hd⟩ := List.mem_flatMap.mp hd
          obtain ⟨hc, hd⟩ := hwhole u (List.mem_cons_of_mem _ hu) d hd
          refine ⟨hc,
            hd.mono fun _ hL =>
            .inr ⟨_, List.mem_append_right _ (List.mem_singleton_self _), _, ?_, hL⟩⟩
          exact List.mem_map_of_mem hu
      · have hinner : ∀ d ∈ (peel order choice (node i l (t :: ts))).dues, d.pending = true →
            l.kind.isInner = true := by
          intro d hd hpending
          by_cases hf : l.kind = .function
          · exact absurd (hpending.symm.trans (h.dues_function hf d hd)) Bool.noConfusion
          · simp [Kind.isInner, ho, hf]
        rw [peel_under i t ts (by simpa using hl) (by simpa using ho)] at hinner ⊢
        have hunder := (hpeel t List.mem_cons_self).under choice
          (f := ⟨i, l, [], ts.map fun u => (whole order choice u).tree⟩) (linked_peel t)
          fun d hd => hinner d (List.mem_append_left _ hd)
        intro d hd
        rcases List.mem_append.mp hd with hd | hd
        · exact ⟨(hunder d hd).1, (hunder d hd).2.mono fun _ hL => .inl hL⟩
        · obtain ⟨u, hu, hdu⟩ := List.mem_flatMap.mp hd
          obtain ⟨hc, hdu⟩ := hwhole u (List.mem_cons_of_mem _ hu) d hdu
          refine ⟨hc, hdu.over (hinner d (List.mem_append_right _ hd)) fun hP hQ hL => .inl ?_⟩
          exact lodged_under hP hQ (List.mem_map_of_mem hu) hL

end Grown

end ChainLowering
