import ChainLowering.Proofs.OneChain

/-!
# What is left of a chain

A tree that a chain goes on with is lowered as far as it goes: guards, and
what is left behind them. One link more makes little of that, and at the end
of the chain it is closed, or called.
-/

namespace ChainLowering

namespace Grown

section
variable (order : List NodeId) (choice : NodeId → Choice)

/-- A tree that a chain goes on with, lowered as far as it goes. -/
def low (glue : NodeId → Glue) (t : Grown) : Lowering :=
  lower glue (peel order choice t).base (peel order choice t).links

/-- Children with their chains lowered. -/
def wholeAll (ts : List Grown) : List Grown := ts.map fun u => (whole order choice u).tree

end

/-- An access that keeps its object, if a temporary is given. -/
def keeping : Option Temp → Grown → Grown
  | some z, node j m (o :: keys) => node j m (z.keep o :: keys)
  | _, t => t

section
variable {order : List NodeId} {choice : NodeId → Choice} {glue : NodeId → Glue} {i : NodeId}
    {l : Label} {t c : Grown}
  {ts args : List Grown} {d : Lowering}

@[simp] theorem keeping_none (t : Grown) : keeping none t = t := rfl

theorem keeping_some (z : Temp) (i : NodeId) (l : Label) (o : Grown) (keys : List Grown) :
    keeping (some z) (node i l (o :: keys)) = node i l (z.keep o :: keys) := rfl

/-! ## No chain -/

theorem low_of_not_chain (hl : t.label.kind.isChain = false) :
    low order choice glue t = { rest := (whole order choice t).tree } := by
  rw [low, links_peel order choice (bottom_of hl), whole_eq order choice (bottom_of hl)]
  rfl

theorem dues_peel (hl : t.label.kind.isChain = false) :
    (peel order choice t).dues = (whole order choice t).dues := by
  rw [whole_eq order choice (bottom_of hl)]

/-! ## One link more -/

theorem dues_chain (hl : l.kind.isChain = true) :
    (peel order choice (node i l (t :: ts))).dues =
      (peel order choice t).dues ++ duesAll order choice ts := by
  rw [peel_chain i t ts hl]
  rfl

theorem low_chain (hl : l.kind.isChain = true) :
    low order choice glue (node i l (t :: ts)) = (low order choice glue t).step glue ⟨i, l,
      wholeAll order choice ts⟩ := by
  rw [low, peel_chain i t ts hl, lower, List.foldl_append]
  rfl

theorem low_unmarked (hl : l.kind.isChain = true) (hm : l.chainStart = false) :
    low order choice glue (node i l (t :: ts)) =
      { low order choice glue t with
        rest := node i l.plain ((low order choice glue t).rest :: wholeAll order choice ts) } := by
  rw [low_chain hl, Lowering.step, if_neg (by simp [hm])]

theorem Sound.children_ne (hs : t.Sound) (hl : t.label.kind.isLink = true) : t.children ≠ [] := by
  obtain ⟨i, l, ts⟩ := t
  rintro rfl
  exact (sound_node.mp hs).1.link hl rfl

theorem receivable_low (hs : t.Sound) : Receivable (low order choice glue t).rest := by
  cases hl : t.label.kind.isChain with
  | false =>
    have hb := bottom_of hl
    rw [low_of_not_chain hl]
    refine ⟨by rwa [label_whole order choice hb], fun hget => ?_⟩
    rw [label_whole order choice hb] at hget
    obtain ⟨i, l, _ | ⟨t, ts⟩⟩ := t
    · refine absurd rfl (hs.children_ne ?_)
      revert hget
      rw [label_node]
      cases l.kind <;> decide
    · rw [label_node] at hget
      rw [whole_get hget]
      exact List.cons_ne_nil _ _
  | true =>
    have hne := hs.children_ne (Tree.isChain_of_isLink hl)
    obtain ⟨i, l, _ | ⟨t, ts⟩⟩ := t
    · exact absurd rfl hne
    · rw [label_node] at hl
      rw [low_chain hl]
      exact receivable_step ..

theorem label_rest_split (v : Saved) (k : Link) (e : Grown) :
    (split v k e).rest.label = k.label.plain := by
  rcases split_cases v k e with h | ⟨j, m, o, keys, -, -, -, h⟩ <;> rw [h] <;> rfl

variable (order choice glue) in
theorem kind_low (hs : t.Sound) :
    (low order choice glue t).rest.label.kind = t.label.plain.kind := by
  cases hl : t.label.kind.isChain with
  | false =>
    rw [low_of_not_chain hl, label_whole order choice (bottom_of hl)]
    change t.label.kind = t.label.kind.plain?.getD t.label.kind
    revert hl
    cases t.label.kind <;> decide
  | true =>
    have hne := hs.children_ne (Tree.isChain_of_isLink hl)
    obtain ⟨i, l, _ | ⟨t, ts⟩⟩ := t
    · exact absurd rfl hne
    · rw [label_node] at hl
      rw [low_chain hl, Lowering.step]
      split_ifs
      · rw [Lowering.cut, label_rest_split]; rfl
      · rfl

theorem low_marked (hs : t.Sound) (hl : l.kind.isChain = true) (hm : l.chainStart = true)
    (hget : (t.label.plain.kind.isGet && decide (l.plain.kind = .call)) = false) :
    low order choice glue (node i l (t :: ts)) =
      (let d := low order choice glue t
      let v := (glue i).saved
      ⟨d.temps ++ [v.value], d.guards ++ [⟨glue i, v.value.keep d.rest⟩],
        node i l.plain (v.value.use :: wholeAll order choice ts)⟩) := by
  rw [← kind_low order choice glue hs] at hget
  rw [low_chain hl, step_marked _ hm, Lowering.cut, split_of_other hget]

theorem low_member (hs : t.Sound) (hl : l.kind.isChain = true) (hm : l.chainStart = true)
    (hc : l.plain.kind = .call) (hget : t.label.plain.kind.isGet = true) :
    low order choice glue (node i l (t :: ts)) =
      (let d := low order choice glue t
      let v := (glue i).saved
      ⟨d.temps ++ [v.this, v.value],
        d.guards ++ [⟨glue i, v.value.keep (keeping (some v.this) d.rest)⟩],
        node i l.plain (node v.dot (.made .getProp (some "call") v.value.src) [v.value.use] ::
          v.this.use :: wholeAll order choice ts)⟩) := by
  have hrest : Receivable (low order choice glue t).rest := receivable_low hs
  rw [← kind_low order choice glue hs] at hget
  rw [low_chain hl, step_marked _ hm, Lowering.cut]
  generalize low order choice glue t = d at hget hrest
  obtain ⟨xs, gs, ⟨j, m, _ | ⟨o, keys⟩⟩⟩ := d
  · exact absurd rfl (hrest.2 hget)
  · dsimp only at hget ⊢
    rw [label_node] at hget
    rw [split_of_get o keys hget hc]
    rfl

/-! ## The end of the chain -/

theorem guards_low (hs : t.Sound) (hl : t.label.kind.isChain = true) :
    (low order choice glue t).guards ≠ [] := by
  induction t with
  | node i l ts ih =>
    obtain ⟨hfits, hts⟩ := sound_node.mp hs
    rw [label_node] at hl
    obtain _ | ⟨t, ts⟩ := ts
    · exact absurd rfl (hfits.link (Tree.isChain_of_isLink hl))
    · rw [low_chain hl, Lowering.step]
      split_ifs with hm
      · exact List.append_ne_nil_of_right_ne_nil _ (List.cons_ne_nil _ _)
      · refine ih t List.mem_cons_self (hts t List.mem_cons_self) ?_
        rw [← isChain_toTree]
        exact hfits.goesOn hl (by simpa using hm) _ rfl

theorem isDue_of_mem (hs : t.Sound) (hl : t.label.kind.isChain = true) (hi : t.id ∈ order) :
    (peel order choice t).isDue order = true := by
  have hne := hs.children_ne (Tree.isChain_of_isLink hl)
  obtain ⟨i, l, _ | ⟨t, ts⟩⟩ := t
  · exact absurd rfl hne
  · rw [Peeled.isDue, id_peel, peel_chain (l := l) i t ts hl]
    simpa using hi

variable (order choice) in
theorem whole_chain (hs : t.Sound) (hl : t.label.kind.isChain = true) (hi : t.id ∈ order) :
    whole order choice t =
      ⟨(peel order choice t).dues ++ Due.all t.id (low order choice (choice t.id).glue t).temps,
      (low order choice (choice t.id).glue t).close⟩ := by
  rw [whole, Peeled.close, if_pos (isDue_of_mem hs hl hi), Peeled.lowering, id_peel]
  rfl

theorem Lowering.called_eq (u : Temp) (dot : NodeId) (src : Label) (i : NodeId) (l : Label)
    (args : List Grown) (h : d.rest.children ≠ []) : d.called u dot src i l args =
      node i l (node dot (.made .getProp (some "call") src)
        [Lowering.close { d with rest := keeping (some u) d.rest }] ::
        u.use :: args) := by
  obtain ⟨xs, gs, ⟨j, m, _ | ⟨o, keys⟩⟩⟩ := d
  · exact absurd rfl h
  · rfl

variable (order choice) in
theorem whole_callee (i : NodeId) (args : List Grown) (hk : l.kind = .call) (hs : c.Sound)
    (hl : c.label.kind.isChain = true) (hi : c.id ∈ order) :
    whole order choice (node i l (c :: args)) =
      (let d := low order choice (choice c.id).glue c
      let r := choice c.id
      let f : Frame := ⟨i, l, [], wholeAll order choice args⟩
      ⟨(peel order choice c).dues ++ Due.all c.id (d.declared r.this f) ++
        duesAll order choice args, d.placed r.this r.dot r.src f⟩) := by
  rw [whole_under i c args (by rw [hk]; rfl) (by rw [hk]; rfl), Peeled.under,
    if_pos (isDue_of_mem hs hl hi), Peeled.lowering, id_peel]
  rfl

variable (order choice) in
theorem whole_callee_other (i : NodeId) (args : List Grown) (hk : l.kind = .call) (hs : c.Sound)
    (hl : c.label.kind.isChain = true) (hi : c.id ∈ order)
    (hget : c.label.plain.kind.isGet = false) : whole order choice (node i l (c :: args)) =
      (let d := low order choice (choice c.id).glue c
      ⟨(peel order choice c).dues ++ Due.all c.id d.temps ++ duesAll order choice args,
        node i l (d.close :: wholeAll order choice args)⟩) := by
  have hcalled : (low order choice (choice c.id).glue c).isCalled
      ⟨i, l, [], wholeAll order choice args⟩ = false := by
    rw [Lowering.isCalled, kind_low _ _ _ hs, hget, Bool.and_false]
  rw [whole_callee order choice i args hk hs hl hi]
  dsimp only
  rw [Lowering.declared, Lowering.placed, hcalled]
  rfl

variable (order choice) in
theorem whole_callee_get (i : NodeId) (args : List Grown) (hk : l.kind = .call) (hs : c.Sound)
    (hl : c.label.kind.isChain = true) (hi : c.id ∈ order)
    (hget : c.label.plain.kind.isGet = true) : whole order choice (node i l (c :: args)) =
      (let d := low order choice (choice c.id).glue c
      let r := choice c.id
      ⟨(peel order choice c).dues ++ Due.all c.id (d.temps ++ [r.this]) ++
        duesAll order choice args, node i l (node r.dot (.made .getProp (some "call") r.src)
          [Lowering.close { d with rest := keeping (some r.this) d.rest }] ::
          r.this.use :: wholeAll order choice args)⟩) := by
  rw [← kind_low order choice (choice c.id).glue hs] at hget
  have hcalled : (low order choice (choice c.id).glue c).isCalled ⟨i, l, [],
      wholeAll order choice args⟩ = true := by
    rw [Lowering.isCalled, hget, hk]
    rfl
  rw [whole_callee order choice i args hk hs hl hi]
  dsimp only
  rw [Lowering.declared, Lowering.placed, hcalled, if_pos rfl, if_pos rfl,
    Lowering.called_eq _ _ _ _ _ _ ((receivable_low hs).2 hget)]

end

end Grown

end ChainLowering
