import Mathlib.Algebra.BigOperators.Group.List.Basic
import ChainLowering.Proofs.Whole

/-!
# Sums over lowered trees

A sum over the nodes of a tree, where a node counts by its place below a
function or script as well. To lower a chain moves trees about, but none out
of its function or into another. So what is kept of each node is kept of the
whole tree.
-/

namespace ChainLowering

/-- The nearest function or script from a node on, where `s` is the nearest above it. -/
def Label.scope (l : Label) (i : NodeId) (s : Ref) : Ref := if l.kind.isScope then some i else s

theorem Label.scope_of_not_isScope {l : Label} (h : l.kind.isScope = false) (i : NodeId) (s : Ref) :
    l.scope i s = s := by
  rw [scope, h]
  rfl

namespace Grown

variable {M : Type} [AddCommMonoid M] (w : Ref → NodeId → Label → M) (s : Ref)

mutual
def total (s : Ref) : Grown → M
  | node i l ts => w (l.scope i s) i l + totals (l.scope i s) ts
def totals (s : Ref) : List Grown → M
  | [] => 0
  | t :: ts => total s t + totals s ts
end

@[simp] theorem totals_nil : totals w s [] = 0 := by rw [totals]

@[simp] theorem totals_cons (t : Grown) (ts : List Grown) :
    totals w s (t :: ts) = total w s t + totals w s ts := by rw [totals]

@[simp] theorem totals_append (ts us : List Grown) :
    totals w s (ts ++ us) = totals w s ts + totals w s us := by
  induction ts with
  | nil => simp
  | cons t ts ih => rw [List.cons_append, totals_cons, ih, totals_cons, add_assoc]

theorem totals_eq (ts : List Grown) : totals w s ts = (ts.map (total w s)).sum := by
  induction ts with
  | nil => rw [totals_nil]; rfl
  | cons t ts ih => rw [totals_cons, ih]; rfl

theorem total_node (i : NodeId) (l : Label) (ts : List Grown) :
    total w s (node i l ts) = w (l.scope i s) i l + totals w (l.scope i s) ts := by rw [total]

theorem total_inner {l : Label} (hl : l.kind.isScope = false) (i : NodeId) (ts : List Grown) :
    total w s (node i l ts) = w s i l + totals w s ts := by
  rw [total_node, l.scope_of_not_isScope hl]

theorem map_total {N : Type} [AddCommMonoid N] (φ : M →+ N) (t : Grown) :
    φ (total w s t) = total (fun s i l => φ (w s i l)) s t := by
  induction t generalizing s with
  | node i l ts ih =>
    rw [total_node, total_node, map_add, totals_eq, totals_eq, map_list_sum, List.map_map]
    exact congrArg (φ _ + List.sum ·) (List.map_congr_left fun t ht => ih t ht _)

/-! ## Around a hole -/

/-- The nearest function or script above a hole. -/
def within (s : Ref) : Context → Ref
  | [] => s
  | f :: K => f.label.scope f.id (within s K)

/-- The sum over a frame in the scope `s`. -/
def Frame.total (f : Frame) : M :=
  let s := f.label.scope f.id s
  w s f.id f.label + (totals w s f.left + totals w s f.right)

def contextTotal : Context → M
  | [] => 0
  | f :: K => contextTotal K + f.total w (within s K)

theorem total_fill (f : Frame) (t : Grown) :
    total w s (f.fill t) = f.total w s + total w (f.label.scope f.id s) t := by
  rw [Frame.fill, total_node, totals_append, totals_cons, Frame.total]
  abel

theorem total_plug (K : Context) (t : Grown) :
    total w s (plug K t) = contextTotal w s K + total w (within s K) t := by
  induction K generalizing t with
  | nil => exact (zero_add _).symm
  | cons f K ih =>
    rw [plug_cons, ih, total_fill, contextTotal, within]
    abel

theorem Frame.total_inner {f : Frame} (hf : f.label.kind.isScope = false) :
    f.total w s = w s f.id f.label + (totals w s f.left + totals w s f.right) := by
  rw [Frame.total, Label.scope_of_not_isScope hf]

/-! ## What is kept -/

theorem not_isScope_of_isChain {k : Kind} (h : k.isChain = true) : k.isScope = false := by
  cases k <;> first | rfl | cases h

theorem not_isScope_plain {l : Label} (h : l.kind.isChain = true) :
    l.plain.kind.isScope = false := by
  rw [Label.plain]
  generalize l.kind = k at h
  cases k <;> first | rfl | cases h

theorem within_links {ks : List Link} (hk : Linked ks) : within s (ks.map Link.frame) = s := by
  induction ks with
  | nil => rfl
  | cons k ks ih =>
    obtain ⟨hk, hks⟩ := List.forall_mem_cons.mp hk
    rw [List.map_cons, within, ih hks]
    exact Label.scope_of_not_isScope (not_isScope_of_isChain hk) _ _

/-- A relation of sums that nodes keep to when they are made, and links when they become plain. A
temporary is declared only if `T` holds of it. -/
structure KeepsTotal (w : Ref → NodeId → Label → M) (T : Temp → Prop) (r : M → M → Prop) :
    Prop where
  refl : ∀ x, r x x
  trans : ∀ {x y z}, r x y → r y z → r x z
  add : ∀ {x y x' y'}, r x y → r x' y' → r (x + x') (y + y')
  made : ∀ s i {l : Label}, l.synthesized = true → l.kind.isScope = false →
    l.kind ≠ .letDecl → r 0 (w s i l)
  declared : ∀ s {x : Temp}, T x → r 0 (w s x.declared (.made .letDecl none x.src))
  plain : ∀ s i {l : Label}, l.kind.isChain = true → r (w s i l) (w s i l.plain)

namespace KeepsTotal

variable {w s} {T : Temp → Prop} {r : M → M → Prop} (hr : KeepsTotal w T r) {x y x' y' : M}
    {t u : Grown} {f : Frame} {k : Link} {ks : List Link} {d : Lowering}
include hr

theorem of_eq (h : x = y) : r x y := h ▸ hr.refl x

theorem congr (h : r x y) (hx : x' = x) (hy : y = y') : r x' y' :=
  hr.trans (hr.of_eq hx) (hr.trans h (hr.of_eq hy))

theorem plug (K : Context) (h : r (total w (within s K) t) (total w (within s K) u)) :
    r (total w s (Grown.plug K t)) (total w s (Grown.plug K u)) := by
  rw [total_plug, total_plug]
  exact hr.add (hr.refl _) h

theorem node_made {kind : Kind} (hk : kind.isScope = false) (hd : kind ≠ .letDecl) (i : NodeId)
    (text : Option String) (src : Label) {ts : List Grown} (h : r x (totals w s ts)) :
    r x (total w s (node i (.made kind text src) ts)) := by
  rw [total_inner w s hk]
  exact hr.congr (hr.add (hr.made s i rfl hk hd) h) (zero_add x).symm rfl

theorem leaf_made {kind : Kind} (hk : kind.isScope = false) (hd : kind ≠ .letDecl) (i : NodeId)
    (text : Option String) (src : Label) :
    r 0 (total w s (node i (.made kind text src) [])) :=
  hr.node_made hk hd i text src (hr.of_eq (totals_nil w s).symm)

variable (s)

theorem use (x : Temp) : r 0 (total w s x.use) :=
  hr.leaf_made (rfl : Kind.name.isScope = false) Kind.noConfusion ..

theorem keep (x : Temp) (t : Grown) : r (total w s t) (total w s (x.keep t)) := by
  have htarget : r 0 (total w s (node x.target (.made .name (some x.name) x.src) [])) :=
    hr.leaf_made rfl Kind.noConfusion ..
  refine hr.node_made rfl Kind.noConfusion _ _ _
    (hr.congr (hr.add htarget (hr.refl (total w s t))) (zero_add _).symm ?_)
  rw [totals_cons, totals_cons, totals_nil, add_zero]

theorem declaration {x : Temp} (hx : T x) : r 0 (total w s x.declaration) := by
  have hbinding : r 0 (total w s (node x.binding (.made .name (some x.name) x.src) [])) :=
    hr.leaf_made rfl Kind.noConfusion ..
  rw [Temp.declaration, total_inner w s (by rfl), totals_cons, totals_nil, add_zero]
  exact hr.congr (hr.add (hr.declared s hx) hbinding) (zero_add 0).symm rfl

theorem declarations {xs : List Temp} (hxs : ∀ x ∈ xs, T x) :
    r 0 (totals w s (xs.map Temp.declaration)) := by
  induction xs with
  | nil => exact hr.of_eq (totals_nil w s).symm
  | cons x xs ih =>
    obtain ⟨hx, hxs⟩ := List.forall_mem_cons.mp hxs
    rw [List.map_cons, totals_cons]
    exact hr.congr (hr.add (hr.declaration s hx) (ih hxs)) (zero_add 0).symm rfl

theorem declaring (f : Frame) {xs : List Temp} (hxs : ∀ x ∈ xs, T x) :
    r (f.total w s) ((f.declaring xs).total w s) := by
  refine hr.congr (hr.add (hr.refl (f.total w s)) (hr.declarations (f.label.scope f.id s) hxs))
    (add_zero _).symm ?_
  rw [Frame.total, Frame.total, Frame.declaring, totals_append]
  abel

/-! ## One chain -/

variable {s} in
theorem plainLink {ts : List Grown} (hk : k.label.kind.isChain = true) (h : r x (totals w s ts)) :
    r (w s k.id k.label + x) (total w s (node k.id k.label.plain ts)) := by
  rw [total_inner w s (not_isScope_plain hk)]
  exact hr.add (hr.plain s k.id hk) h

theorem split (v : Saved) (hk : k.label.kind.isChain = true) (e : Grown) :
    r (k.frame.total w s + total w s e) (total w s (Grown.split v k e).receiver + total w s
      (Grown.split v k e).rest) := by
  rw [Frame.total_inner w s (f := k.frame) (not_isScope_of_isChain hk)]
  obtain hs | ⟨j, m, o, keys, rfl, -, -, hs⟩ := split_cases v k e
  · have hargs : r (totals w s k.args) (totals w s (v.value.use :: k.args)) :=
      hr.congr (hr.add (hr.use s v.value) (hr.refl _)) (zero_add _).symm (totals_cons ..).symm
    rw [hs]
    refine hr.congr (hr.add (hr.keep s v.value e) (hr.plainLink hk hargs)) ?_ rfl
    simp only [Link.frame, totals_nil]
    abel
  · have hget : r (total w s (node j m (o :: keys)))
        (total w s (node j m (v.this.keep o :: keys))) := by
      rw [total_node, total_node, totals_cons, totals_cons]
      exact hr.add (hr.refl _) (hr.add (hr.keep _ v.this o) (hr.refl _))
    have hdot :
        r 0 (total w s (node v.dot (.made .getProp (some "call") v.value.src) [v.value.use])) :=
      hr.node_made rfl Kind.noConfusion _ _ _ (hr.congr (hr.use s v.value) rfl (by simp))
    have hargs : r (totals w s k.args) (totals w s
        (node v.dot (.made .getProp (some "call") v.value.src) [v.value.use] :: v.this.use ::
          k.args)) := by
      refine hr.congr (hr.add hdot (hr.add (hr.use s v.this) (hr.refl (totals w s k.args))))
        (by abel) ?_
      rw [totals_cons, totals_cons]
    rw [hs]
    refine hr.congr (hr.add (hr.trans hget (hr.keep s v.value _)) (hr.plainLink hk hargs)) ?_ rfl
    simp only [Link.frame, totals_nil]
    abel

end KeepsTotal

namespace Lowering

def total (d : Lowering) : M :=
  (d.guards.map fun g => Grown.total w s g.receiver).sum + Grown.total w s d.rest

end Lowering

namespace KeepsTotal

variable {w} {T : Temp → Prop} {r : M → M → Prop} (hr : KeepsTotal w T r) {k : Link}
    {ks : List Link} {d : Lowering}
include hr

theorem step (glue : NodeId → Glue) (d : Lowering) (hk : k.label.kind.isChain = true) :
    r (k.frame.total w s + d.total w s) ((Lowering.step glue d k).total w s) := by
  rw [Lowering.step]
  split_ifs
  · have h :=
      hr.add (hr.refl (d.guards.map fun g => total w s g.receiver).sum)
        (hr.split s (glue k.id).saved hk d.rest)
    refine hr.congr h ?_ ?_
    · rw [Lowering.total]
      abel
    · simp only [Lowering.total, Lowering.cut, List.map_append, List.map_singleton, List.sum_append,
        List.sum_singleton]
      abel
  · have hlink : r (w s k.id k.label + (total w s d.rest + totals w s k.args))
        (total w s (node k.id k.label.plain (d.rest :: k.args))) :=
          hr.plainLink hk (hr.of_eq (totals_cons ..).symm)
    refine hr.congr (hr.add (hr.refl (d.guards.map fun g => total w s g.receiver).sum) hlink) ?_ rfl
    rw [Frame.total_inner w s (f := k.frame) (not_isScope_of_isChain hk), Lowering.total,
      Link.frame, totals_nil]
    abel

theorem foldl_step (glue : NodeId → Glue) (d : Lowering) (hk : Linked ks) :
    r (contextTotal w s (ks.map Link.frame) + d.total w s)
      ((ks.foldl (Lowering.step glue) d).total w s) := by
  induction ks generalizing d with
  | nil => exact hr.of_eq (zero_add _)
  | cons k ks ih =>
    obtain ⟨hk, hks⟩ := List.forall_mem_cons.mp hk
    have h := hr.add (hr.refl (contextTotal w s (ks.map Link.frame))) (hr.step s glue d hk)
    refine hr.trans (hr.congr h ?_ rfl) (ih _ hks)
    rw [List.map_cons, contextTotal, within_links s hks]
    abel

theorem guard (g : Guard) : r (total w s g.receiver) (g.frame.total w s) := by
  have hnull : r 0 (total w s (node g.glue.null (.made .nullLit none g.glue.src) [])) :=
    hr.leaf_made rfl Kind.noConfusion ..
  have hzero : r 0 (total w s (node g.glue.zero (.made .numberLit (some "0") g.glue.src) [])) :=
    hr.leaf_made rfl Kind.noConfusion ..
  have htest : r (total w s g.receiver) (total w s g.test) :=
    hr.node_made rfl Kind.noConfusion _ _ _
      (hr.congr (hr.add (hr.refl (total w s g.receiver)) hnull) (add_zero _).symm (by simp))
  have hundefined : r 0 (total w s g.undefined) :=
    hr.node_made rfl Kind.noConfusion _ _ _ (hr.congr hzero rfl (by simp))
  rw [Frame.total_inner w s (f := g.frame) rfl]
  refine hr.congr
    (hr.add (hr.made s g.glue.hook (l := .made .hook none g.glue.src) rfl rfl Kind.noConfusion)
      (hr.add htest hundefined)) ?_ ?_
  · abel
  · simp only [Guard.frame, totals_cons, totals_nil]
    abel

theorem close (d : Lowering) : r (d.total w s) (total w s d.close) := by
  obtain ⟨xs, gs, e⟩ := d
  induction gs with
  | nil => exact hr.of_eq (zero_add _)
  | cons g gs ih =>
    rw [Lowering.close_cons, total_fill, Label.scope_of_not_isScope (by rfl)]
    refine hr.congr (hr.add (hr.guard s g) ih) ?_ rfl
    rw [Lowering.total, Lowering.total, List.map_cons, List.sum_cons, add_assoc]

theorem placed (hrest : Receivable d.rest) (y : Temp) (dot : NodeId) (src : Label) (g : Frame) :
    r (g.total w s + d.total w (g.label.scope g.id s)) (total w s (d.placed y dot src g)) := by
  rw [Lowering.placed]
  split_ifs with hc
  · simp only [Lowering.isCalled, Bool.and_eq_true, decide_eq_true_eq] at hc
    obtain ⟨xs, gs, ⟨j, m, _ | ⟨o, keys⟩⟩⟩ := d
    · exact absurd rfl (hrest.2 hc.2)
    · generalize hs : g.label.scope g.id s = s'
      have hkeep : r (Lowering.total w s' ⟨xs, gs, node j m (o :: keys)⟩)
          (Lowering.total w s' ⟨xs, gs, node j m (y.keep o :: keys)⟩) := by
        simp only [Lowering.total, total_node, totals_cons]
        exact hr.add (hr.refl _) (hr.add (hr.refl _) (hr.add (hr.keep _ y o) (hr.refl _)))
      have hdot : r (Lowering.total w s' ⟨xs, gs, node j m (o :: keys)⟩)
        (total w s' (node dot (.made .getProp (some "call") src)
          [Lowering.close ⟨xs, gs, node j m (y.keep o :: keys)⟩])) :=
        hr.node_made rfl Kind.noConfusion _ _ _
          (hr.congr (hr.trans hkeep (hr.close s' _)) rfl (by simp))
      refine hr.congr (hr.add (hr.refl (w s' g.id g.label + totals w s' g.right))
        (hr.add hdot (hr.use s' y))) ?_ ?_
      · rw [Frame.total, hs, List.isEmpty_iff.mp hc.1.2, totals_nil]
        abel
      · simp only [Lowering.called, total_node, hs, totals_cons]
        abel
  · rw [total_fill]
    exact hr.add (hr.refl _) (hr.close _ d)

/-! ## All chains -/

theorem lower {x : Grown} (glue : NodeId → Glue) (hk : Linked ks) :
    r (total w s (tower x ks)) ((Grown.lower glue x ks).total w s) := by
  refine hr.congr (hr.foldl_step s glue { rest := x } hk) ?_ rfl
  rw [tower, total_plug, within_links s hk, Lowering.total, List.map_nil, List.sum_nil, zero_add]

theorem lowers {t u : Grown} {c : NodeId} {xs : List Temp} (h : Lowers t c xs u)
    (hxs : ∀ x ∈ xs, T x) :
    r (total w s t) (total w s u) := by
  obtain ⟨set, -, glue, y, dot, src⟩ := h
  rename_i x ks g f K M
  have hplaced : ∀ s,
      r (total w s (g.fill (tower x ks)))
        (total w s ((Grown.lower glue x ks).placed y dot src g)) := by
    intro s
    rw [total_fill]
    exact hr.trans (hr.add (hr.refl _) (hr.lower _ glue set.links))
      (hr.placed s (receivable_lower glue x set.nonempty) y dot src g)
  have hstatement : ∀ s, r (total w s (f.fill (Grown.plug K (g.fill (tower x ks)))))
      (total w s ((f.declaring ((Grown.lower glue x ks).declared y g)).fill
        (Grown.plug K ((Grown.lower glue x ks).placed y dot src g)))) := by
    intro s
    rw [total_fill, total_fill]
    exact hr.add (hr.declaring s f hxs) (hr.plug K (hplaced _))
  rw [set.tree, List.cons_append, plug_cons, plug_append, plug_append]
  exact hr.plug M (hstatement _)

theorem lowersAll {t u : Grown} {cs : List NodeId} {xs : List Temp} (h : LowersAll t cs xs u)
    (hxs : ∀ x ∈ xs, T x) :
    r (total w s t) (total w s u) := by
  induction h with
  | nil => exact hr.refl _
  | cons first _ ih =>
    obtain ⟨hxs, hys⟩ := List.forall_mem_append.mp hxs
    exact hr.trans (hr.lowers s first hxs) (ih hys)

end KeepsTotal

end Grown

end ChainLowering
