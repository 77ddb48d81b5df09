import ChainLowering.Proofs.Descent
import ChainLowering.Proofs.Forest
import ChainLowering.Proofs.NurserySound
import ChainLowering.Proofs.Rounds

/-!
# Spans nest

Each node that is read covers a part of the source, from the first byte of a
token to the last byte of one. What is below it covers parts of that, one after
the other.
-/

namespace ChainLowering

open Grown
open Lexer (IsBoundary bytes)

theorem le_bytes_of_isBoundary {s : List Char} {n : Nat} (h : IsBoundary s n) : n ≤ bytes s := by
  obtain ⟨pre, rest, rfl, rfl⟩ := h
  simp

theorem row_readTrees {source : String} {t : Tree} (h : readTrees source = (.ok (), [t])) :
    ∃ n, Tree.Row (IsBoundary source.toList) 0 n [t] := by
  obtain ⟨toks, m, r, htoks, -, hrounds, -, rfl⟩ := Reader.readTrees_iff.mp h
  obtain ⟨us, e, rfl, heof, hus⟩ := Lexer.last_tokens htoks
  have hstart : IsBoundary source.toList 0 := ⟨[], _, rfl, rfl⟩
  have hrows :=
    Reader.rows_whole { tokens := (us ++ [e]).map (Token.moved 0), made := [] }
      heof hus (Lexer.inOrder_tokens htoks) hstart rfl rfl
  obtain ⟨r', ts, -, hrows⟩ := hrows.rounds hrounds
  refine ⟨r.lastStop,
    .cons le_rfl rfl rfl hstart hrows.end_place (Tree.Row.filter ?_ _) (.nil le_rfl)⟩
  have htrees : r.made.reverse = ts := by simp [hrows.trees]
  rw [htrees]
  exact hrows.row

namespace Arena

def span? (a : Arena) (r : Ref) : Option (Nat × Nat) :=
  (a.node? r).bind fun n => n.start.bind fun p => n.stop.map fun q => (p, q)

/-- The empty name of a function that has none. -/
def isUnnamed (a : Arena) (r : Ref) : Bool :=
  (a.node? r).any fun n =>
    n.kind = .name && n.text = some "" && n.children = [] && a.isKind n.parent .function

/-- Between two bytes the slots cover parts, one after the other. -/
structure CoverInTurn (a : Arena) (p q : Nat) (rs : List Ref) (ss : List (Nat × Nat)) : Prop where
  spans : rs.map a.span? = ss.map some
  inside : ∀ s ∈ ss, p ≤ s.1 ∧ s.2 ≤ q
  apart : ss.Pairwise fun s t => s.2 ≤ t.1

/-- The node covers the bytes from `p` to `q`, and its children cover parts of them. -/
structure Covers (a : Arena) (i : NodeId) (p q : Nat) : Prop where
  span : a.span? (some i) = some (p, q)
  le : p ≤ q
  parts : ∃ ss, a.CoverInTurn p q ((a.children (some i)).filter fun c => !a.isUnnamed c) ss

variable {a b : Arena} {P : Nat → Prop} {p q : Nat} {ts : List Tree} {gs : List Grown} {r : Ref}

theorem isUnnamed_child {i : NodeId} {l : Label} (hi : Shows a r (.node i l gs)) {g : Grown}
    (hg : g ∈ gs) :
    a.isUnnamed (some g.id) = (l.kind = .function && g.toTree.isUnnamed) := by
  have hroot := (hi.child hg).root
  have hkind : a.isKind (some i) .function = decide (l.kind = .function) := by
    have hk : a.kind? (some i) = some l.kind := hi.kind?
    simp [isKind, hk]
  cases g with
  | node j m us =>
    rw [toTree_node, isUnnamed, hroot]
    simp [Tree.isUnnamed, Tree.of, hkind, slots, Bool.and_comm]

theorem ids_of_isUnnamed {g : Grown} (h : g.toTree.isUnnamed = true) : g.ids = [g.id] := by
  cases g with
  | node j m us =>
    rw [toTree_node] at h
    have hus : us = [] := by simp [Tree.isUnnamed, Tree.of] at h; exact h.2
    simp [hus]

theorem slots_filter_isUnnamed {i : NodeId} {l : Label} (hi : Shows a r (.node i l gs)) :
    (slots gs).filter (fun c => !a.isUnnamed c) = slots (gs.filter fun g =>
      !(l.kind = .function && g.toTree.isUnnamed)) := by
  rw [slots, List.filter_map, slots]
  congr 1
  refine List.filter_congr fun g hg => ?_
  simp only [Function.comp_apply, isUnnamed_child hi hg]

theorem covers_of_row (h : Tree.Row P p q ts) (hts : gs.map toTree = ts)
    (hshow : ∀ g ∈ gs, ∃ r, Shows a r g) : (∃ ss, a.CoverInTurn p q (slots gs) ss) ∧
      ∀ g ∈ gs, ∀ i ∈ g.ids, a.isUnnamed (some i) = false → ∃ p q, a.Covers i p q ∧ P p ∧ P q := by
  induction h generalizing gs with
  | nil le =>
    obtain rfl := List.map_eq_nil_iff.mp hts
    exact ⟨⟨[], rfl, nofun, .nil⟩, nofun⟩
  | @cons p q start stop l us ts after begins ends hbegin hend below row ihbelow ihrow =>
    obtain ⟨⟨i, m, gs'⟩, gs, rfl, hg, hgs⟩ := List.map_eq_cons_iff.mp hts
    obtain ⟨⟨r, hr⟩, hshow⟩ := List.forall_mem_cons.mp hshow
    rw [toTree_node] at hg
    obtain ⟨rfl, hus⟩ := Tree.of_inj hg
    obtain ⟨⟨ss, hss⟩, hrest⟩ := ihrow hgs hshow
    let placed := gs'.filter fun g => !(m.kind = .function && g.toTree.isUnnamed)
    have hplaced : placed.map toTree = Tree.placed m us := by
      rw [← hus, Tree.placed, List.filter_map]; rfl
    obtain ⟨hparts, hbelow⟩ := ihbelow hplaced fun g hg => ⟨_, hr.child (List.mem_of_mem_filter hg)⟩
    have hspan : a.span? (some i) = some (start, stop) := by
      have hroot : a.node? (some i) = some ⟨m, r, slots gs'⟩ := hr.root
      simp [span?, hroot, begins, ends]
    have hchildren : a.children (some i) = slots gs' := hr.children
    refine ⟨⟨(start, stop) :: ss, ?_, ?_, ?_⟩, ?_⟩
    · rw [slots_cons, List.map_cons, List.map_cons, hss.spans, id_node, hspan]
    · refine List.forall_mem_cons.mpr ⟨⟨after, row.le⟩, fun s hs => ?_⟩
      exact ⟨(after.trans below.le).trans (hss.inside s hs).1, (hss.inside s hs).2⟩
    · exact .cons (fun s hs => (hss.inside s hs).1) hss.apart
    · refine List.forall_mem_cons.mpr ⟨fun j hj hnamed => ?_, hrest⟩
      rw [ids_node, List.mem_cons, List.mem_flatMap] at hj
      obtain rfl | ⟨g, hg, hj⟩ := hj
      · refine ⟨start, stop, ⟨hspan, below.le, ?_⟩, hbegin, hend⟩
        rwa [hchildren, slots_filter_isUnnamed hr]
      · by_cases hg' : (m.kind = .function && g.toTree.isUnnamed) = true
        · -- the name that is left out is excepted
          have hid := isUnnamed_child hr hg
          rw [ids_of_isUnnamed (Bool.and_eq_true_iff.mp hg').2, List.mem_singleton] at hj
          rw [hj, hid, hg'] at hnamed
          cases hnamed
        · exact hbelow g (List.mem_filter.mpr ⟨hg, by rw [eq_false_of_ne_true hg']; rfl⟩)
            j hj hnamed

/-- Every node of a script that is read covers a part of the text, but for the empty names of
anonymous functions. It begins and ends where characters do, and its children cover parts of it one
after the other. -/
theorem read_spans {source : String} (h : a.read source = (.ok r, b)) :
    ∀ i ∈ b.preorder r, b.isUnnamed (some i) = false → ∃ p q, b.Covers i p q ∧
      q ≤ bytes source.toList ∧ IsBoundary source.toList p ∧ IsBoundary source.toList q := by
  obtain ⟨g, rfl, htree, hscript, hholds, -⟩ := read_holds (Forest.holds_all a) h
  obtain ⟨n, hrow⟩ := row_readTrees htree
  have hshow : ∀ u ∈ [g], ∃ r, Shows b r u := by
    intro u hu
    obtain rfl := List.mem_singleton.mp hu
    exact ⟨none, hholds.shows⟩
  have htop : [g].map toTree = [g.toTree] := rfl
  obtain ⟨-, hcovers⟩ := covers_of_row hrow htop hshow
  rw [preorder_tree hholds]
  intro i hi hnamed
  obtain ⟨p, q, hc, hp, hq⟩ := hcovers g List.mem_cons_self i hi hnamed
  exact ⟨p, q, hc, le_bytes_of_isBoundary hq, hp, hq⟩

theorem read_spans_sample :
    ∃ r b, ({} : Arena).read "f(function (x) \x7breturn 'é';\x7d);" = (.ok r, b) ∧
    (b.preorder r).length = 11 ∧ (b.preorder r).filter (fun i => b.isUnnamed (some i)) = [1] ∧
    ∀ i ∈ b.preorder r, b.isUnnamed (some i) = false → ∃ p q, b.Covers i p q ∧ q ≤ 31 ∧
      IsBoundary "f(function (x) \x7breturn 'é';\x7d);".toList p ∧
      IsBoundary "f(function (x) \x7breturn 'é';\x7d);".toList q := by
  have hread : ∃ r b, ({} : Arena).read "f(function (x) \x7breturn 'é';\x7d);" = (.ok r, b) ∧
      (b.preorder r).length = 11 ∧ (b.preorder r).filter (fun i => b.isUnnamed (some i)) = [1] :=
    exists_of_read (by decide +kernel)
  obtain ⟨r, b, hr, hlen, hnames⟩ := hread
  have hbytes : bytes "f(function (x) \x7breturn 'é';\x7d);".toList = 31 := by decide +kernel
  have hspans := read_spans hr
  rw [hbytes] at hspans
  exact ⟨r, b, hr, hlen, hnames, hspans⟩

end Arena

end ChainLowering
