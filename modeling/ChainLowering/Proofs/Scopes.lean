import ChainLowering.Proofs.Forest
import ChainLowering.Proofs.Retained

/-!
# Functions and scripts around a node

Lowering moves no node into another function or script, and makes none.
-/

namespace ChainLowering

open Grown Arena

theorem Rule.kind_eq_script_iff {part : Part} {l : Label} {parts : List Part}
    (h : Rule part l parts) :
    l.kind = .script ↔ part = .script := by
  induction h with
  | inner _ ih | named _ ih | «variable» _ ih | closure _ ih | target _ _ ih | chain _ _ ih =>
      simpa using ih
  | @declaration k _ hk | @constant k hk | @unary k hk | @binary k hk =>
      revert hk; cases k <;> decide
  | property hk | element hk | call _ hk => rcases hk with rfl | rfl <;> simp
  | _ => simp

theorem Rule.ne_script {part : Part} {l : Label} {parts : List Part} (h : Rule part l parts) :
    ∀ p ∈ parts, p ≠ .script := by
  have hreceiver : ∀ k mark, Part.receiver k mark ≠ .script := by
    intro k mark
    rw [Part.receiver]
    split_ifs <;> decide
  induction h with
  | inner _ ih | named _ ih | «variable» _ ih | closure _ ih | target _ _ ih | chain _ _ ih =>
      exact ih
  | _ => simp +contextual [hreceiver, List.mem_replicate]

namespace Grown

variable {t u : Grown} {c : NodeId} {xs : List Temp} {K : Context}

/-- Every node with the nearest function or script. -/
def scopes (t : Grown) : Multiset (NodeId × Ref) := total (fun s i _ => {(i, s)}) none t

/-- Number of scripts. -/
def scripts (t : Grown) : Nat := total (fun _ _ l => if l.kind = .script then 1 else 0) none t

theorem keeps_scopes :
    KeepsTotal (fun s i _ => ({(i, s)} : Multiset (NodeId × Ref))) (fun _ => True) (· ≤ ·) where
  refl := le_refl
  trans := le_trans
  add := add_le_add
  made _ _ _ _ _ _ := Multiset.zero_le _
  declared _ _ _ := Multiset.zero_le _
  plain _ _ _ _ := le_rfl

theorem keeps_scripts :
    KeepsTotal (fun _ _ l => if l.kind = .script then 1 else 0) (fun _ => True) (@Eq Nat) where
  refl _ := rfl
  trans := Eq.trans
  add := congrArg₂ (· + ·)
  made _ _ l _ hl _ := by
    rw [if_neg]
    intro e
    rw [e] at hl
    cases hl
  declared _ _ _ := rfl
  plain _ _ l hl := by
    have hp := not_isScope_plain hl
    rw [if_neg, if_neg] <;> intro e
    · rw [e] at hp; cases hp
    · rw [e] at hl; cases hl

theorem Lowers.scopes_le (h : Lowers t c xs u) : t.scopes ≤ u.scopes :=
  keeps_scopes.lowers none h fun _ _ => trivial

theorem Lowers.scripts_eq (h : Lowers t c xs u) : t.scripts = u.scripts :=
  keeps_scripts.lowers none h fun _ _ => trivial

theorem keys_scopes (t : Grown) : t.scopes.map Prod.fst = (t.ids : Multiset NodeId) := by
  have hscopes :=
    map_total (fun s i _ => ({(i, s)} : Multiset (NodeId × Ref)))
      none (Multiset.mapAddMonoidHom Prod.fst) t
  have hnodes :=
    map_total (fun _ i l => ({(i, l)} : Nodes)) none (Multiset.mapAddMonoidHom Prod.fst) t
  rw [total_nodes] at hnodes
  exact hscopes.trans (hnodes.symm.trans (keys_nodes t))

theorem mem_scopes_hole (K : Context) (u : Grown) :
    (u.id, u.label.scope u.id (within none K)) ∈ (plug K u).scopes := by
  obtain ⟨i, l, ts⟩ := u
  rw [scopes, total_plug, total_node]
  simp

theorem isSome_within {f : Frame} (hf : f ∈ K) (hscope : f.label.kind.isScope = true) :
    (within none K).isSome = true := by
  induction K with
  | nil => cases hf
  | cons g K ih =>
    rw [within, Label.scope]
    split_ifs with hg
    · rfl
    · rcases List.mem_cons.mp hf with rfl | hf
      · exact absurd hscope hg
      · exact ih hf

theorem find?_within {p : NodeId → Bool} (hp : ∀ f ∈ K, p f.id = f.label.kind.isScope) :
    (K.map Frame.id).find? p = within none K := by
  induction K with
  | nil => rfl
  | cons f K ih =>
    rw [List.map_cons, within, Label.scope, ← hp f List.mem_cons_self]
    cases hf : p f.id with
    | true => rw [List.find?_cons_of_pos hf]; rfl
    | false =>
      rw [List.find?_cons_of_neg (by simp [hf])]
      exact ih fun g hg => hp g (List.mem_cons_of_mem _ hg)

theorem mem_ids_of_mem_endSet (h : c ∈ t.endSet false) : c ∈ t.ids := by
  obtain ⟨K, u, rfl, rfl, -, -⟩ := exists_of_mem_ends (K := []) h
  exact mem_ids_plug K u.id_mem_ids

theorem total_scripts {part : Part} (h : Tree.Is part t.toTree) (s : Ref) :
    total (fun _ _ l => if l.kind = .script then 1 else 0) s t =
      if part = .script then 1 else 0 := by
  induction t generalizing part s with
  | node i l ts ih =>
    rw [toTree_node] at h
    obtain ⟨parts, rule, hparts⟩ := h.exists_rule
    have hts : (ts.map (total (fun _ _ l => if l.kind = .script then 1 else 0) (l.scope i s))).sum =
        0 := by
      refine List.sum_eq_zero fun n hn => ?_
      obtain ⟨t, ht, rfl⟩ := List.mem_map.mp hn
      obtain ⟨p, hp, his⟩ := Tree.exists_part hparts (List.mem_map_of_mem ht)
      rw [ih t ht his, if_neg (rule.ne_script p hp)]
    rw [total_node, totals_eq, hts, add_zero]
    exact if_congr rule.kind_eq_script_iff rfl rfl

theorem scripts_of_is (h : Tree.Is .script t.toTree) : t.scripts = 1 := total_scripts h none

end Grown

namespace Arena

variable {a b : Arena} {R S : Entries} {t u : Grown} {i c : NodeId} {s : Ref}
    {xs : List Temp} {K : Context}

theorem enclosingScope?_hole (h : a.Holds ((plug K u).entries none + R)) :
    a.enclosingScope? (some u.id) = u.label.scope u.id (within none K) := by
  have hp : ∀ f ∈ (⟨u.id, u.label, [], []⟩ :: K : Context),
      (a.kind? (some f.id)).any Kind.isScope = f.label.kind.isScope := by
    intro f hf
    rcases List.mem_cons.mp hf with rfl | hf
    · rw [kind?_hole h]; rfl
    · obtain ⟨n, hn, hl⟩ := (labels_frame hf u).add_right (F := R)
      rw [kind?, h.get hn, ← hl]; rfl
  rw [enclosingScope?, ancestors_hole h]
  exact find?_within (K := ⟨u.id, u.label, [], []⟩ :: K) hp

theorem mem_scopes (h : a.Holds (t.entries none + R)) (hi : i ∈ t.ids) :
    (i, a.enclosingScope? (some i)) ∈ t.scopes := by
  obtain ⟨K, u, rfl, rfl⟩ := Forest.exists_plug hi
  rw [enclosingScope?_hole h]
  exact mem_scopes_hole K u

theorem enclosingScope?_of_mem (h : a.Holds (t.entries none + R)) (hi : (i, s) ∈ t.scopes) :
    a.enclosingScope? (some i) = s := by
  have hnodup : (t.scopes.map Prod.fst).Nodup := by
    rw [keys_scopes]
    exact Multiset.coe_nodup.mpr (nodup_ids_of_holds h)
  have hmem : i ∈ t.ids := by
    rw [← Multiset.mem_coe, ← keys_scopes]
    exact Multiset.mem_map_of_mem Prod.fst hi
  exact congrArg Prod.snd (Multiset.inj_on_of_nodup_map hnodup _ (mem_scopes h hmem) _ hi rfl)

theorem isSome_enclosingScope? (hk : t.label.kind = .script) (h : a.Holds (t.entries none + R))
    (hi : i ∈ t.ids) : (a.enclosingScope? (some i)).isSome = true := by
  obtain ⟨K, u, rfl, rfl⟩ := Forest.exists_plug hi
  rw [enclosingScope?_hole h, Label.scope]
  split_ifs with hu
  · rfl
  · obtain _ | ⟨g, K⟩ := K
    · rw [plug_nil] at hk
      rw [hk] at hu
      exact absurd rfl hu
    · obtain ⟨f, hf, -, hlabel⟩ := Lower.exists_root_frame g K u
      refine isSome_within hf ?_
      rw [hlabel, hk]
      rfl

theorem mem_ids_of_ancestor (h : a.Holds ((plug K u).entries none + R))
    (hi : i ∈ a.ancestors (some u.id)) :
    i ∈ (plug K u).ids := by
  rw [ancestors_hole h] at hi
  rcases List.mem_cons.mp hi with rfl | hi
  · exact mem_ids_plug K u.id_mem_ids
  · obtain ⟨f, hf, rfl⟩ := List.mem_map.mp hi
    obtain ⟨n, hn, -⟩ := labels_frame hf u
    rw [← Multiset.mem_coe, ← keys_entries none]
    exact Multiset.mem_map_of_mem Prod.fst hn

theorem eq_root_of_script (hk : t.label.kind = .script) (hone : t.scripts = 1)
    (h : a.Holds (t.entries none + R)) (hi : i ∈ t.ids) (hs : a.isKind (some i) .script = true) :
    i = t.id := by
  obtain ⟨K, u, rfl, rfl⟩ := Forest.exists_plug hi
  obtain rfl | ⟨L, r, rfl⟩ := List.eq_nil_or_concat K
  · rfl
  -- there would be two scripts
  rw [isKind, kind?_hole h, decide_eq_true_eq] at hs
  rw [List.concat_eq_append, plug_append] at hk hone
  obtain ⟨j, l, ts⟩ := u
  have hl : l.kind = .script := Option.some.inj hs
  simp only [scripts, plug_cons, plug_nil, total_fill, total_plug, total_node, Frame.total] at hone
  have hr : r.label.kind = .script := hk
  rw [if_pos hr, if_pos hl] at hone
  omega

theorem enclosingScope?_of_scopes_le (ha : a.Holds (t.entries none + R))
    (hb : b.Holds (u.entries none + S)) (h : t.scopes ≤ u.scopes) (hi : i ∈ t.ids) :
    b.enclosingScope? (some i) = a.enclosingScope? (some i) :=
  enclosingScope?_of_mem hb (Multiset.mem_of_le h (mem_scopes ha hi))

end Arena

end ChainLowering
