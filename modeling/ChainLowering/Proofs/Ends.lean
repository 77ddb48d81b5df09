import ChainLowering.Proofs.ChainSound
import ChainLowering.Proofs.Descent

/-!
# Chains that are left

To lower a chain is to take one end away: the chains in its receivers, keys
and arguments move with the trees they stand in, and no chain is made.
-/

namespace ChainLowering

namespace Grown

variable {x e : Grown} {k : Link} {ks : List Link} {d : Lowering} {c : Bool}

def endSet (c : Bool) (t : Grown) : Multiset NodeId := t.ends c

def endSets (ts : List Grown) : Multiset NodeId := endsAll false ts

@[simp] theorem endSets_nil : endSets [] = 0 := rfl

@[simp] theorem endSets_cons (t : Grown) (ts : List Grown) :
    endSets (t :: ts) = t.endSet false + endSets ts :=
  (Multiset.coe_add _ _).symm

@[simp] theorem endSets_append (ts us : List Grown) :
    endSets (ts ++ us) = endSets ts + endSets us := by
  induction ts with
  | nil => simp
  | cons t ts ih => rw [List.cons_append, endSets_cons, ih, endSets_cons, add_assoc]

theorem endSet_plain (c : Bool) (i : NodeId) {l : Label} (ts : List Grown)
    (hl : l.kind.isChain = false) : (node i l ts).endSet c = endSets ts := by
  rw [endSet, ends_node, hl]
  rfl

theorem endSet_link (c : Bool) (i : NodeId) {l : Label} (t : Grown) (ts : List Grown)
    (hl : l.kind.isChain = true) :
    (node i l (t :: ts)).endSet c = (if c then 0 else {i}) + (t.endSet true + endSets ts) := by
  rw [endSet, ends_node, hl, endsAll_cons]
  cases c <;> rfl

theorem endSet_of_not_isChain (h : x.label.kind.isChain = false) (c : Bool) :
    x.endSet c = x.endSet false := by
  obtain ⟨i, l, ts⟩ := x
  rw [label_node] at h
  rw [endSet_plain c i ts h, endSet_plain false i ts h]

theorem nodup_ids_of_holds {a : Arena} {t : Grown} {R : Entries}
    (h : a.Holds (t.entries none + R)) : t.ids.Nodup := by
  have := h.nodup
  rw [Multiset.map_add, keys_entries] at this
  exact Multiset.coe_nodup.mp (Multiset.nodup_add.mp this).1

theorem nodup_endSet {a : Arena} {t : Grown} {R : Entries} (h : a.Holds (t.entries none + R)) :
    (t.endSet false).Nodup := by
  have hends : t.ends false = t.ids.filter fun i : NodeId => a.isChainEnd i := by
    rw [← Arena.preorder_tree h, ← Arena.chainEnds_tree h, Arena.chainEnds]
  rw [endSet, Multiset.coe_nodup, hends]
  exact (nodup_ids_of_holds h).filter _

/-! ## Trees with a hole -/

theorem exists_endSet_fill (c : Bool) (f : Frame) :
    ∃ E : Multiset NodeId, ∀ t, (f.fill t).endSet c = t.endSet f.continues + E := by
  cases hl : f.label.kind.isChain with
  | false =>
    refine ⟨endSets f.left + endSets f.right, fun t => ?_⟩
    rw [Frame.fill, endSet_plain c _ _ hl, endSets_append, endSets_cons, Frame.continues, hl,
      Bool.false_and]
    abel
  | true =>
    cases hleft : f.left with
    | nil =>
      refine ⟨(if c then 0 else {f.id}) + endSets f.right, fun t => ?_⟩
      rw [Frame.fill, hleft, List.nil_append, endSet_link c _ _ _ hl, Frame.continues, hl, hleft]
      simp only [List.isEmpty_nil, Bool.and_self]
      abel
    | cons u us =>
      refine ⟨(if c then 0 else {f.id}) + (u.endSet true + endSets us + endSets f.right),
        fun t => ?_⟩
      rw [Frame.fill, hleft, List.cons_append, endSet_link c _ _ _ hl, Frame.continues, hl, hleft,
        endSets_append, endSets_cons]
      simp only [List.isEmpty_cons, Bool.and_false]
      abel

theorem exists_endSet_plug (K : Context) :
    ∃ E : Multiset NodeId, ∀ t, (plug K t).endSet false = t.endSet (isContinued K) + E := by
  induction K with
  | nil => exact ⟨0, fun t => (add_zero _).symm⟩
  | cons f K ih =>
    obtain ⟨E, hE⟩ := ih
    obtain ⟨F, hF⟩ := exists_endSet_fill (isContinued K) f
    refine ⟨F + E, fun t => ?_⟩
    rw [plug_cons, hE, hF, add_assoc]
    rfl

theorem endSet_declaring (c : Bool) {f : Frame} (xs : List Temp) (t : Grown)
    (hf : f.label.kind.isChain = false) :
    ((f.declaring xs).fill t).endSet c = (f.fill t).endSet c := by
  have hxs : endSets (xs.map Temp.declaration) = 0 := by
    induction xs with
    | nil => rfl
    | cons x xs ih => rw [List.map_cons, endSets_cons, ih]; rfl
  rw [Frame.fill, Frame.fill, Frame.declaring, endSet_plain c _ _ hf, endSet_plain c _ _ hf]
  simp only [endSets_append, hxs, add_zero]

/-! ## Towers -/

def argEnds (ks : List Link) : Multiset NodeId := (ks.map fun k => endSets k.args).sum

theorem argEnds_cons (k : Link) (ks : List Link) :
    argEnds (k :: ks) = endSets k.args + argEnds ks := rfl

theorem argEnds_snoc (k : Link) (ks : List Link) :
    argEnds (ks ++ [k]) = argEnds ks + endSets k.args := by
  simp [argEnds]

theorem endSet_tower_continued (hc : Linked ks) (hx : x.label.kind.isChain = false) :
    (tower x ks).endSet true = x.endSet false + argEnds ks := by
  induction ks using List.reverseRecOn with
  | nil => rw [tower_nil, endSet_of_not_isChain hx]; exact (add_zero _).symm
  | append_singleton ks k ih =>
    rw [tower_snoc, endSet_link true _ _ _ (hc k (by simp)),
      ih fun j hj => hc j (List.mem_append_left _ hj), argEnds_snoc, if_pos rfl,
      zero_add, add_assoc]

theorem endSet_tower (hc : Linked ks) (hx : x.label.kind.isChain = false) (hne : ks ≠ []) :
    (tower x ks).endSet false = (tower x ks).id ::ₘ (x.endSet false + argEnds ks) := by
  rcases List.eq_nil_or_concat ks with rfl | ⟨ks, k, rfl⟩
  · exact absurd rfl hne
  · rw [List.concat_eq_append] at hc ⊢
    rw [tower_snoc, endSet_link false _ _ _ (hc k (by simp)),
      endSet_tower_continued (fun j hj => hc j (List.mem_append_left _ hj)) hx,
      argEnds_snoc, add_assoc]
    rfl

/-! ## The reference -/

@[simp] theorem endSet_keep (x : Temp) (t : Grown) (c : Bool) :
    (x.keep t).endSet c = t.endSet false := by
  rw [Temp.keep, endSet_plain c _ _ rfl, endSets_cons, endSets_cons, endSets_nil, add_zero]
  exact zero_add _

theorem endSet_receiver (v : Saved) (k : Link) (e : Grown) :
    (split v k e).receiver.endSet false = e.endSet false := by
  cases hc : (e.label.kind.isGet && decide (k.label.plain.kind = .call)) with
  | false => rw [split_of_other hc, endSet_keep]
  | true =>
    obtain ⟨hg, hk⟩ := Bool.and_eq_true_iff.mp hc
    obtain ⟨j, m, _ | ⟨o, keys⟩⟩ := e
    · exact endSet_keep ..
    · have hm := not_isChain_of_isGet hg
      rw [label_node] at hg hm
      rw [split_of_get o keys hg (of_decide_eq_true hk), endSet_keep, endSet_plain false _ _ hm,
        endSet_plain false _ _ hm, endSets_cons, endSets_cons, endSet_keep]

theorem endSet_rest (v : Saved) (k : Link) (e : Grown) :
    (split v k e).rest.endSet false = endSets k.args := by
  cases hc : (e.label.kind.isGet && decide (k.label.plain.kind = .call)) with
  | false =>
    rw [split_of_other hc, endSet_plain false _ _ (isChain_plain _), endSets_cons]
    exact zero_add _
  | true =>
    obtain ⟨hg, hk⟩ := Bool.and_eq_true_iff.mp hc
    obtain ⟨j, m, _ | ⟨o, keys⟩⟩ := e
    · refine (endSet_plain false k.id (v.value.use :: k.args) (isChain_plain k.label)).trans ?_
      rw [endSets_cons]
      exact zero_add _
    · rw [label_node] at hg
      rw [split_of_get o keys hg (of_decide_eq_true hk),
        endSet_plain false _ _ (isChain_plain _), endSets_cons, endSets_cons]
      exact (zero_add _).trans (zero_add _)

namespace Lowering

def ends (d : Lowering) : Multiset NodeId :=
  (d.guards.map fun g => g.receiver.endSet false).sum + d.rest.endSet false

theorem ends_step (glue : NodeId → Glue) (d : Lowering) (k : Link) :
    (step glue d k).ends = d.ends + endSets k.args := by
  rw [step]
  split_ifs
  · simp only [cut, ends, List.map_append, List.map_singleton, List.sum_append, List.sum_singleton,
      endSet_receiver, endSet_rest]
  · rw [ends, ends, endSet_plain false _ _ (isChain_plain _), endSets_cons, add_assoc]

theorem ends_foldl_step (glue : NodeId → Glue) (ks : List Link) (d : Lowering) :
    (ks.foldl (step glue) d).ends = d.ends + argEnds ks := by
  induction ks generalizing d with
  | nil => exact (add_zero _).symm
  | cons k ks ih => rw [List.foldl_cons, ih, ends_step, argEnds_cons, add_assoc]

theorem endSet_guards (gs : List Guard) (t : Grown) : (plug (gs.map Guard.frame) t).endSet false =
    (gs.map fun g => g.receiver.endSet false).sum + t.endSet false := by
  induction gs generalizing t with
  | nil => exact (zero_add _).symm
  | cons g gs ih =>
    have hg : (g.frame.fill t).endSet false = g.receiver.endSet false + t.endSet false := by
      refine (endSet_plain false _ _ rfl).trans ?_
      simp only [Guard.frame, List.cons_append, List.nil_append, endSets_cons, endSets_nil,
        Guard.test, Guard.undefined]
      rw [endSet_plain false _ _ rfl, endSet_plain false _ _ rfl]
      simp [endSet, Label.made, Kind.isChain]
    rw [List.map_cons, plug_cons, ih, hg, List.map_cons, List.sum_cons]
    abel

theorem endSet_close (d : Lowering) : d.close.endSet false = d.ends := by
  rw [close, endSet_guards, ends, List.map_reverse, List.sum_reverse]

end Lowering

theorem endSet_lower (glue : NodeId → Glue) (hc : Linked ks) (hx : x.label.kind.isChain = false)
    (hne : ks ≠ []) :
    (tower x ks).endSet false = (tower x ks).id ::ₘ (lower glue x ks).close.endSet false := by
  rw [endSet_tower hc hx hne, Lowering.endSet_close, lower, Lowering.ends_foldl_step]
  simp [Lowering.ends]

theorem endSet_called (d : Lowering) (u : Temp) (dot : NodeId) (src : Label)
    (i : NodeId) {l : Label} (args : List Grown) (c : Bool) (hl : l.kind.isChain = false)
    (hr : d.rest.label.kind.isChain = false) :
    (d.called u dot src i l args).endSet c = d.close.endSet false + endSets args := by
  obtain ⟨xs, gs, ⟨j, m, _ | ⟨o, keys⟩⟩⟩ := d
  · simp only [Lowering.called]
    rw [endSet_plain c _ _ hl, endSets_cons]
  · rw [label_node] at hr
    simp only [Lowering.called]
    rw [endSet_plain c _ _ hl, endSets_cons, endSets_cons, endSet_plain false _ _ rfl,
      endSets_cons, endSets_nil, add_zero, Lowering.endSet_close, Lowering.endSet_close]
    simp only [Lowering.ends, endSet_plain false _ _ hr, endSets_cons, endSet_keep]
    congr 1

theorem endSet_placed (d : Lowering) (u : Temp) (dot : NodeId) (src : Label) (g : Frame) (c : Bool)
    (hr : d.rest.label.kind.isChain = false) :
    (d.placed u dot src g).endSet c = (g.fill d.close).endSet c := by
  rw [Lowering.placed]
  split_ifs with hd
  · simp only [Lowering.isCalled, Bool.and_eq_true, decide_eq_true_eq] at hd
    obtain ⟨⟨hk, hleft⟩, -⟩ := hd
    have hl : g.label.kind.isChain = false := by rw [hk]; rfl
    rw [endSet_called d u dot src g.id g.right c hl hr, Frame.fill, endSet_plain c _ _ hl,
      List.isEmpty_iff.mp hleft, List.nil_append, endSets_cons]
  · rfl

/-- The tree around a chain loses one end when the chain is lowered. -/
theorem endSet_replaced {f g : Frame} {K M : Context} (glue : NodeId → Glue) (xs : List Temp)
    (u : Temp) (dot : NodeId) (src : Label) (hc : Linked ks) (hx : Receivable x) (hne : ks ≠ [])
    (hend : endsChain (g :: K) = true) (hf : f.label.kind.isChain = false) :
    (plug (g :: K ++ f :: M) (tower x ks)).endSet false = (tower x ks).id ::ₘ
      (plug (K ++ f.declaring xs :: M) ((lower glue x ks).placed u dot src g)).endSet false := by
  have hdecl : ∀ t,
      (plug (K ++ f.declaring xs :: M) t).endSet false = (plug (K ++ f :: M) t).endSet false := by
    intro t
    obtain ⟨E, hE⟩ := exists_endSet_plug M
    rw [plug_append, plug_append, plug_cons, plug_cons, hE, hE, endSet_declaring _ xs _ hf]
  obtain ⟨E, hE⟩ := exists_endSet_plug (K ++ f :: M)
  obtain ⟨F, hF⟩ := exists_endSet_fill (isContinued (K ++ f :: M)) g
  have hg : g.continues = false := by simpa [endsChain] using hend
  have hr : (lower glue x ks).rest.label.kind.isChain = false :=
    (receivable_foldl_step glue ks (d := { rest := x }) hx).1
  rw [hdecl, List.cons_append, plug_cons, hE, hE, endSet_placed _ u dot src g _ hr, hF, hF, hg,
    endSet_lower glue hc hx.1 hne]
  simp only [Multiset.cons_add]

end Grown

end ChainLowering
