import ChainLowering.Proofs.Fits
import ChainLowering.Proofs.Forest
import ChainLowering.Proofs.Holds
import ChainLowering.Proofs.InStep
import ChainLowering.Proofs.ReadEnds
import ChainLowering.Proofs.ReadSound

/-!
# What is read stands beside what was there

The readers put their nodes into a store one by one, each above nodes that they
put there before. So at every moment what they added are trees beside what the
store held at first, with the next indices in post-order. The readers that make
trees go in step with them and say which trees these are.
-/

namespace ChainLowering

open Grown

namespace Grown

/-! ## Indices, each after those below it -/

mutual
def postorder : Grown → List NodeId
  | node i _ ts => postorderAll ts ++ [i]
def postorderAll : List Grown → List NodeId
  | [] => []
  | t :: ts => t.postorder ++ postorderAll ts
end

theorem postorderAll_eq (ts : List Grown) : postorderAll ts = ts.flatMap postorder := by
  induction ts with
  | nil => rfl
  | cons t ts ih => rw [postorderAll, ih]; rfl

@[simp] theorem postorder_node (i : NodeId) (l : Label) (ts : List Grown) :
    (node i l ts).postorder = ts.flatMap postorder ++ [i] := by
  rw [postorder, postorderAll_eq]

end Grown

/-! ## One node more -/

namespace Nursery

variable {a : Arena} {R : Entries} {s : Nursery} {gs : List Grown}

/-- The roots are those of trees, and these are all that was added to the store. -/
structure Bears (a : Arena) (R : Entries) (s : Nursery) (gs : List Grown) : Prop where
  roots : s.roots = gs.map Grown.id
  holds : s.arena.Holds (entriesAll none gs + R)
  features : s.arena.features = a.features
  size_le : a.size ≤ s.arena.size
  order : gs.reverse.flatMap postorder = List.range' a.size (s.arena.size - a.size)

theorem bears_nil (h : a.Holds R) : Bears a R { arena := a } [] where
  roots := rfl
  holds := by simpa using h
  features := rfl
  size_le := Nat.le_refl _
  order := by simp

/-- The topmost trees become the children of the new node, the rest stays. -/
theorem Bears.build (h : s.Bears a R gs) (l : Label) (n : Nat) :
    (s.build l n).Bears a R (.node s.arena.size l (gs.take n).reverse :: gs.drop n) := by
  have hroots : (s.roots.take n).reverse.map some = slots (gs.take n).reverse := by
    rw [h.roots, ← List.map_take, ← List.map_reverse, List.map_map]
    rfl
  have hparted : s.arena.Holds (entriesAll none (gs.take n).reverse +
      (entriesAll none (gs.drop n) + R)) := by
    have hholds := h.holds
    rwa [← List.take_append_drop n gs, entriesAll_append,
      entriesAll_perm (List.reverse_perm _).symm, add_assoc] at hholds
  obtain ⟨b, hb, hsize, harena, htop⟩ := s.build_eq l n
  obtain ⟨c, hc, hholds, hfeatures⟩ := Arena.addNode_adds _ l hparted
  rw [hroots, hc] at hb
  cases hb
  have hle := h.size_le
  refine ⟨?_, ?_, ?_, ?_, ?_⟩
  · rw [htop, h.roots, List.map_cons, List.map_drop, id_node]
  · rw [harena, entriesAll_cons, add_assoc]
    exact hholds
  · rw [harena, hfeatures, h.features]
  · rw [harena, hsize]
    omega
  · have hsplit : gs.reverse = (gs.drop n).reverse ++ (gs.take n).reverse := by
      rw [← List.reverse_append, List.take_append_drop]
    have horder := h.order
    rw [hsplit, List.flatMap_append] at horder
    rw [List.reverse_cons, List.flatMap_append, List.flatMap_singleton, postorder_node,
      ← List.append_assoc, horder, harena, hsize, Nat.succ_sub hle, List.range'_concat, Nat.one_mul,
      Nat.add_sub_cancel' hle]

/-- The trees on the other stack are those that the nursery bears. -/
def Follows (a : Arena) (R : Entries) (s : Nursery) (ts : List Tree) : Prop :=
  ∃ gs, s.Bears a R gs ∧ ts = gs.map toTree

instance (a : Arena) (R : Entries) : NodeStack.Agree (Follows a R) where
  build := by
    rintro s _ ⟨gs, h, rfl⟩ l n
    refine ⟨_, h.build l n, ?_⟩
    rw [NodeStack.build_trees, List.map_cons, toTree_node, List.map_reverse, List.map_take,
      List.map_drop]
  size := by
    rintro s _ ⟨gs, h, rfl⟩
    change s.roots.length = (gs.map toTree).length
    rw [h.roots, List.length_map, List.length_map]
  topKind? := by
    rintro s _ ⟨gs, h, rfl⟩
    change s.arena.kind? s.roots.head? = _
    rw [h.roots]
    cases gs with
    | nil => rfl
    | cons g gs =>
      have hshow : Arena.Shows s.arena none g := by
        have hholds := h.holds
        rw [entriesAll_cons, add_assoc] at hholds
        exact hholds.shows
      rw [List.map_cons, List.map_cons, NodeStack.topKind?_cons, List.head?_cons, hshow.kind?]
      cases g with
      | node i l ts => rw [toTree_node]; rfl

end Nursery

/-! ## Reading -/

namespace Arena

variable {a b : Arena} {R : Entries} {source : String} {r : Ref} {ts : List Tree}

/-- Whether a text can be read or not, what is added to the store are the trees that are made of it.
-/
theorem read_bears (h : a.Holds R) (source : String) : ∃ s gs, Nursery.Bears a R s gs ∧
    a.read source = ((readTrees source).1.map fun _ => s.roots.head?, s.arena) ∧
    (readTrees source).2 = (gs.map toTree).reverse := by
  unfold read readTrees
  have hscan := Lexer.scanned_tokens source
  cases htokens : Lexer.tokens source with
  | error e => exact ⟨{ arena := a }, [], Nursery.bears_nil h, rfl, rfl⟩
  | ok tokens =>
    rw [htokens] at hscan
    let r : Reader Nursery := { tokens := tokens, made := { arena := a } }
    let t : TreeReader := { tokens := tokens, made := [] }
    have hmirrors : r.Mirrors (Nursery.Follows a R) t :=
      ⟨rfl, rfl, rfl, rfl, [], Nursery.bears_nil h, rfl⟩
    have hends := Reader.total_script _ r (Reader.stands_tokens hscan _) rfl
    obtain hbound | ⟨hresult, hmade⟩ := Reader.script_inStep r t hmirrors
    · rcases hrun : Reader.script.run r with ⟨x, r'⟩
      rw [hrun] at hends hbound
      cases hbound
      exact hends.elim
    · obtain ⟨gs, hbears, hgs⟩ := hmade.made
      exact ⟨_, gs, hbears, congrArg (fun x => (Except.map _ x, _)) hresult,
        congrArg List.reverse hgs⟩

theorem fst_read_of_error (a : Arena) {e : Halt ReadError} (h : readTrees source = (.error e, ts)) :
    (a.read source).1 = .error e := by
  obtain ⟨s, gs, -, hread, -⟩ := read_bears (Forest.holds_all a) source
  rw [hread, h]
  rfl

theorem exists_read (a : Arena) (h : readTrees source = (.ok (), ts)) :
    ∃ r b, a.read source = (.ok r, b) := by
  obtain ⟨s, gs, -, hread, -⟩ := read_bears (Forest.holds_all a) source
  rw [hread, h]
  exact ⟨_, _, rfl⟩

open ChainLowering.Tree in
theorem readTrees_is (h : readTrees source = (.ok (), ts)) : ∃ t, ts = [t] ∧ Is .script t := by
  unfold readTrees at h
  split at h
  · cases h
  · rename_i tokens htokens
    rcases hr : (Reader.script : TreeRead Unit).run { tokens := tokens, made := [] } with ⟨x, r⟩
    rw [hr] at h
    obtain ⟨rfl, rfl⟩ := Prod.mk.inj h
    obtain ⟨-, t, ht, e⟩ := Reader.reads_script [] _ _ _ (Lexer.lexed_tokens htokens) rfl hr
    exact ⟨t, by rw [e]; rfl, ht⟩

theorem read_grows (h : a.Holds R) (hr : a.read source = (.ok r, b)) :
    ∃ (s : Nursery) (g : Grown), s.arena = b ∧ s.Bears a R [g] ∧ r = some g.id ∧
      readTrees source = (.ok (), [g.toTree]) ∧ Tree.Is .script g.toTree := by
  obtain ⟨s, gs, hbears, hread, htrees⟩ := read_bears h source
  rw [hread] at hr
  obtain ⟨hid, hb⟩ := Prod.mk.inj hr
  rcases ht : readTrees source with ⟨e | ⟨⟩, ts⟩
  · rw [ht] at hid
    cases hid
  · rw [ht] at hid htrees
    obtain ⟨t, rfl, hscript⟩ := readTrees_is ht
    obtain ⟨g, rfl⟩ : ∃ g, gs = [g] := by
      rw [← List.length_eq_one_iff, ← List.length_map (f := toTree),
        ← List.length_reverse, ← htrees]
      rfl
    obtain rfl : t = g.toTree := List.singleton_inj.mp htrees
    refine ⟨s, g, hb, hbears, ?_, rfl, hscript⟩
    rw [← Except.ok.inj hid, hbears.roots]
    rfl

theorem read_holds (h : a.Holds R) (hr : a.read source = (.ok r, b)) :
    ∃ g : Grown, r = some g.id ∧ readTrees source = (.ok (), [g.toTree]) ∧
      Tree.Is .script g.toTree ∧ b.Holds (g.entries none + R) ∧ b.features = a.features := by
  obtain ⟨s, g, rfl, hbears, hid, ht, hscript⟩ := read_grows h hr
  have hholds := hbears.holds
  rw [entriesAll_cons, entriesAll_nil, add_zero] at hholds
  exact ⟨g, hid, ht, hscript, hholds, hbears.features⟩

theorem readAll_holds {sources : List String} {rs : List Ref} (h : a.Holds R)
    (hr : a.readAll sources = some (rs, b)) : ∃ gs : List Grown, rs = slots gs ∧
      (sources.map readTrees = gs.map fun g => (.ok (), [g.toTree])) ∧
      (∀ g ∈ gs, Tree.Is .script g.toTree) ∧ b.Holds (entriesAll none gs + R) ∧
      b.features = a.features := by
  induction sources generalizing a R rs with
  | nil =>
    obtain ⟨rfl, rfl⟩ := Prod.mk.inj (Option.some.inj hr)
    exact ⟨[], rfl, rfl, by simp, by simpa using h, rfl⟩
  | cons s ss ih =>
    rcases hs : a.read s with ⟨_ | r, c⟩
    · simp [readAll, hs] at hr
    · simp only [readAll, hs, Option.map_eq_some_iff] at hr
      obtain ⟨⟨us, d⟩, hr, e⟩ := hr
      obtain ⟨rfl, rfl⟩ := Prod.mk.inj e
      obtain ⟨g, rfl, hread, hg, hold, hf⟩ := read_holds h hs
      obtain ⟨gs, rfl, hreads, hgs, hold, hf'⟩ := ih hold hr
      refine ⟨g :: gs, rfl, ?_, List.forall_mem_cons.mpr ⟨hg, hgs⟩, hold.of_eq ?_, hf'.trans hf⟩
      · rw [List.map_cons, List.map_cons, hread, hreads]
      · rw [entriesAll_cons]
        abel

/-! ## How reading ends -/

open Lexer (IsBoundary bytes)

theorem scanned_read {h : Halt ReadError} (hr : (a.read source).1 = .error h) :
    Lexer.Scanned source.toList (.error h) := by
  have hscan := Lexer.scanned_tokens source
  unfold read at hr
  cases htokens : Lexer.tokens source with
  | error e =>
    rw [htokens] at hr hscan
    obtain rfl : e = h := Except.error.inj hr
    exact hscan
  | ok tokens =>
    rw [htokens] at hr hscan
    let r : Reader Nursery := { tokens := tokens, made := { arena := a } }
    have hends := Reader.total_script _ r (Reader.stands_tokens hscan _) rfl
    change ((Reader.script.run r).1.map _ : Except (Halt ReadError) Ref) = _ at hr
    rcases hrun : Reader.script.run r with ⟨(e | f) | v, r'⟩ <;> rw [hrun] at hr hends
    · obtain rfl := Except.error.inj hr
      exact hends.1
    · exact hends.elim
    · cases hr

/-- Every text is read to its end, or up to an error that names a place in it where a character
begins. Reading has no other end, except that a backslash before a character of several bytes leaves
the lexer inside that character. -/
theorem read_ends (a : Arena) (source : String) :
    (∃ i, (a.read source).1 = .ok (some i)) ∨
      (∃ e, (a.read source).1 = .error (.error e) ∧ IsBoundary source.toList e.pos) ∨
      ∃ w c rest, source.toList = w ++ '\\' :: c :: rest ∧ 0x80 ≤ c.toNat ∧
        (a.read source).1 = .error (.fault (.insideCharacter (bytes w + 2))) := by
  rcases hr : (a.read source).1 with (e | f) | r
  · exact .inr (.inl ⟨e, rfl, scanned_read hr⟩)
  · obtain ⟨w, c, rest, hsplit, hwide, rfl⟩ := scanned_read hr
    exact .inr (.inr ⟨w, c, rest, hsplit, hwide, rfl⟩)
  · obtain ⟨g, rfl, -⟩ := read_holds (Forest.holds_all a) (Prod.ext hr rfl)
    exact .inl ⟨g.id, rfl⟩

example : (({} : Arena).read "'\\é'").1 = .error (.fault (.insideCharacter 3)) := by cbv

end Arena

end ChainLowering
