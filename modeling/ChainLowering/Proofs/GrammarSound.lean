import ChainLowering.Proofs.Completeness
import ChainLowering.Proofs.Fresh
import ChainLowering.Proofs.Parts

/-!
# Lowered trees are trees of the grammar

A chain is an expression, and so is what lowering makes of it. Where it stood
any expression may stand, and declarations may stand before any statement.
-/

namespace ChainLowering

namespace Rule

variable {part q : Part} {l : Label} {parts qs : List Part}

theorem chain_first (rule : Rule part l parts) :
    .chain ∉ parts.tail ∧ (parts.head? = some .chain → l.kind.isChain = true) := by
  induction rule with
  | inner _ ih | named _ ih | «variable» _ ih | closure _ ih | target _ _ ih | chain _ _ ih =>
      exact ih
  | property | element | call =>
    refine ⟨by simp, fun h => ?_⟩
    rw [List.head?_cons, Part.receiver] at h
    split_ifs at h with hc
    · exact (Bool.and_eq_true_iff.mp hc).1
    · cases h
  | _ => simp [List.head?_replicate]

theorem get_first (rule : Rule .expression l parts) (hl : l.kind.isGet = true) :
    ∃ qs, parts = .expression :: qs := by
  cases rule with
  | «variable» rule | closure rule => cases rule; cases hl
  | property hk => rcases hk with rfl | rfl <;> first | exact ⟨_, rfl⟩ | cases hl
  | element hk => rcases hk with rfl | rfl <;> first | exact ⟨_, rfl⟩ | cases hl
  | call _ hk => rcases hk with rfl | rfl <;> cases hl
  | @unary k hk | @binary k hk | @constant k hk => cases k <;> first | (cases hl; done) | cases hk
  | _ => cases hl

theorem plain (rule : Rule .expression l parts) (hl : l.kind.isChain = true) :
    ∃ mark qs, parts = .receiver l.kind mark :: qs ∧
      Rule .expression l.plain (.expression :: qs) := by
  cases rule with
  | «variable» rule | closure rule => cases rule; cases hl
  | @property k w mark hk hm hw =>
    rcases hk with rfl | rfl
    · cases hl
    · exact ⟨mark, _, rfl, .property (.inl rfl) (fun h => nomatch h) hw⟩
  | @element k mark hk hm =>
    rcases hk with rfl | rfl
    · cases hl
    · exact ⟨mark, _, rfl, .element (.inl rfl) (fun h => nomatch h)⟩
  | @call k mark n hk hm =>
    rcases hk with rfl | rfl
    · cases hl
    · exact ⟨mark, _, rfl, .call n (.inl rfl) (fun h => nomatch h)⟩
  | @unary k hk | @binary k hk | @constant k hk => cases k <;> first | (cases hl; done) | cases hk
  | _ => cases hl

theorem plainCall (rule : Rule part l parts) (hl : l.kind = .call) :
    part = .expression ∧ ∃ n, parts = .expression :: List.replicate n .expression ∧
      ∀ n, Rule .expression l (.expression :: List.replicate n .expression) := by
  cases rule with
  | inner rule | named rule | «variable» rule | closure rule => cases rule; cases hl
  | property hk => rcases hk with rfl | rfl <;> cases hl
  | element hk => rcases hk with rfl | rfl <;> cases hl
  | call n hk hm =>
    rcases hk with rfl | rfl
    · exact ⟨rfl, n, rfl, fun n => .call n (.inl rfl) hm⟩
    · cases hl
  | target _ hk | chain _ hk =>
    rw [hl] at hk
    simp [Kind.isGet, Kind.isChain] at hk
  | @unary k hk | @binary k hk | @constant k hk | @declaration k _ hk =>
      cases k <;> first | (cases hl; done) | cases hk
  | _ => cases hl

end Rule

namespace Names

theorem isIdentifier_candidate (k : Nat) : Lexer.isIdentifier (candidate k) = true := by
  have hword : Lexer.isIdentifier (candidate k) = true ↔
      Lexer.isWord (candidate k) = true ∧ candidate k ∉ keywords := by
    rw [Lexer.isIdentifier, Bool.and_eq_true, Bool.not_eq_true', List.contains_eq_mem,
      decide_eq_false_iff_not]
  have hkey : ∀ w ∈ keywords, w.toList.head? ≠ some '_' := by decide
  rw [hword, candidate]
  split_ifs with hk
  · refine ⟨?_, fun h => hkey _ h (by rw [String.toList_ofList]; rfl)⟩
    rw [Lexer.isWord, String.toList_ofList]
    have hletter : ∀ k < 26, [Char.ofNat ('a'.toNat + k)].all Lexer.continuesWord = true := by
      decide
    exact Bool.and_eq_true_iff.mpr ⟨rfl, hletter k hk⟩
  · refine ⟨?_, fun h => hkey _ h (by rw [String.toList_ofList]; rfl)⟩
    rw [Lexer.isWord, String.toList_ofList]
    refine Bool.and_eq_true_iff.mpr ⟨rfl, List.all_eq_true.mpr fun c hc => ?_⟩
    have hdigit : c.isDigit = true := Nat.isDigit_of_mem_toDigits (by decide) (by decide) hc
    simp [Lexer.continuesWord, Char.isAlphanum, hdigit]

theorem isIdentifier_drawn (g : Names) {n : Nat} {s : String} (hs : s ∈ NameSource.drawn n g) :
    Lexer.isIdentifier s = true := by
  obtain ⟨k, -, rfl⟩ := List.mem_map.mp hs
  exact isIdentifier_candidate _

end Names

namespace Grown

variable {part : Part} {i j : NodeId} {l m : Label} {t u x e o : Grown} {ts us keys : List Grown}
    {k : Link} {ks : List Link}
  {d : Lowering} {f g : Frame} {K : Context} {y : Temp} {xs : List Temp} {c : NodeId}
    {cs : List NodeId}

/-! ## Trees in holes -/

theorem Is.fill (h : (f.fill t).Is part) :
    ∃ q, t.Is q ∧ (f.continues = false → q ≠ .chain) ∧ ∀ u, u.Is q → (f.fill u).Is part := by
  obtain ⟨parts, rule, children⟩ := is_node.mp h
  have hleft := List.forall₂_take_append _ _ _ children
  have hright := List.forall₂_drop_append _ _ _ children
  have hparts := List.take_append_drop f.left.length parts
  generalize parts.take f.left.length = ps at hleft hparts
  generalize parts.drop f.left.length = qs at hright hparts
  obtain _ | @⟨q, _, qs, _, hq, hqs⟩ := hright
  subst hparts
  refine ⟨q, hq, ?_, fun u hu => is_node.mpr ⟨_, rule, List.rel_append hleft (.cons hu hqs)⟩⟩
  rintro hend rfl
  obtain ⟨htail, hhead⟩ := rule.chain_first
  cases ps with
  | nil =>
    have hk : f.label.kind.isChain = true := hhead rfl
    rw [Frame.continues, hk, List.forall₂_nil_left_iff.mp hleft] at hend
    cases hend
  | cons p ps => exact htail (by simp)

theorem Is.plug (h : (plug K t).Is part) :
    ∃ q, t.Is q ∧ ∀ u, u.Is q → (Grown.plug K u).Is part := by
  induction K generalizing t with
  | nil => exact ⟨part, h, fun _ hu => hu⟩
  | cons f K ih =>
    obtain ⟨p, hp, hK⟩ := ih h
    obtain ⟨q, hq, -, hf⟩ := hp.fill
    exact ⟨q, hq, fun u hu => hK _ (hf u hu)⟩

/-! ## Expressions -/

theorem Is.expression_of_chain (h : t.Is .chain) : t.Is .expression := by
  obtain ⟨i, l, ts⟩ := t
  obtain ⟨parts, rule, children⟩ := is_node.mp h
  cases rule with
  | chain rule => exact is_node.mpr ⟨parts, rule, children⟩

theorem Is.expression_of_receiver {k : Kind} {mark : Bool} (h : t.Is (.receiver k mark)) :
    t.Is .expression := by
  rw [Part.receiver] at h
  split_ifs at h
  · exact h.expression_of_chain
  · exact h

theorem Is.eq_expression (h : t.Is part) (ht : t.label.kind.isChain = true) (hp : part ≠ .chain) :
    part = .expression := by
  cases hb : part.isBarred with
  | true => exact absurd (ht.symm.trans (h.isChain_eq_false hb)) Bool.noConfusion
  | false =>
    cases part <;> first | rfl | exact absurd rfl hp | cases hb

theorem Is.get (h : (node j m (o :: keys)).Is .expression) (hm : m.kind.isGet = true) :
    o.Is .expression ∧ ∀ u, u.Is .expression → (node j m (u :: keys)).Is .expression := by
  obtain ⟨parts, rule, children⟩ := is_node.mp h
  obtain ⟨qs, rfl⟩ := rule.get_first hm
  obtain ⟨ho, hkeys⟩ := List.forall₂_cons.mp children
  exact ⟨ho, fun u hu => is_node.mpr ⟨_, rule, .cons hu hkeys⟩⟩

theorem Is.call (h : (node i l (t :: ts)).Is part) (hl : l.kind = .call) :
    part = .expression ∧ t.Is .expression ∧ ∀ u v, u.Is .expression → v.Is .expression →
      (node i l (u :: v :: ts)).Is .expression := by
  obtain ⟨parts, rule, children⟩ := is_node.mp h
  obtain ⟨rfl, n, rfl, hrule⟩ := rule.plainCall hl
  obtain ⟨ht, hts⟩ := List.forall₂_cons.mp children
  exact ⟨rfl, ht, fun u v hu hv => is_node.mpr ⟨_, hrule (n + 1), .cons hu (.cons hv hts)⟩⟩

def Applies (k : Link) : Prop :=
  ∀ t : Grown, t.Is .expression → (node k.id k.label.plain (t :: k.args)).Is .expression

theorem Is.applies (h : (node k.id k.label (t :: k.args)).Is .expression)
    (hk : k.label.kind.isChain = true) :
    t.Is .expression ∧ Applies k := by
  obtain ⟨parts, rule, children⟩ := is_node.mp h
  obtain ⟨mark, qs, rfl, hrule⟩ := rule.plain hk
  obtain ⟨ht, hargs⟩ := List.forall₂_cons.mp children
  exact ⟨ht.expression_of_receiver, fun u hu => is_node.mpr ⟨_, hrule, .cons hu hargs⟩⟩

theorem Is.tower (h : (tower x ks).Is .expression) (hk : Linked ks) :
    x.Is .expression ∧ ∀ k ∈ ks, Applies k := by
  induction ks using List.reverseRecOn with
  | nil => exact ⟨h, fun _ hk => nomatch hk⟩
  | append_singleton ks k ih =>
    rw [tower_snoc] at h
    obtain ⟨hks, happ⟩ := h.applies (hk k (by simp))
    obtain ⟨hx, hall⟩ := ih hks fun j hj => hk j (List.mem_append_left _ hj)
    exact ⟨hx, List.forall_mem_append.mpr ⟨hall, List.forall_mem_singleton.mpr happ⟩⟩

/-! ## Temporaries -/

def Named (xs : List Temp) : Prop := ∀ x ∈ xs, Lexer.isIdentifier x.name = true

theorem named_append {ys : List Temp} : Named (xs ++ ys) ↔ Named xs ∧ Named ys :=
  List.forall_mem_append

theorem is_use (hy : Lexer.isIdentifier y.name = true) : y.use.Is .expression :=
  is_node.mpr ⟨_, .variable (.name hy), .nil⟩

theorem is_keep (hy : Lexer.isIdentifier y.name = true) (he : e.Is .expression) :
    (y.keep e).Is .expression := by
  have htarget : (node y.target (.made .name (some y.name) y.src) []).Is .target :=
    is_node.mpr ⟨_, .target (.variable (.name hy)) (.inl rfl), .nil⟩
  exact is_node.mpr ⟨_, .assign, .cons htarget (.cons he .nil)⟩

theorem is_declaration (hy : Lexer.isIdentifier y.name = true) : y.declaration.Is .statement := by
  have hbinding : (node y.binding (.made .name (some y.name) y.src) []).Is .binding :=
    is_node.mpr ⟨_, .binding 0 hy (Nat.zero_le 1), .nil⟩
  exact is_node.mpr ⟨_, .declaration 0 rfl, .cons hbinding .nil⟩

theorem is_method (i : NodeId) (src : Label) (ht : t.Is .expression) :
    (node i (.made .getProp (some "call") src) [t]).Is .expression :=
  is_node.mpr ⟨_, .property (.inl rfl) (fun h => nomatch h) (by decide), .cons ht .nil⟩

/-! ## One chain -/

theorem is_split (v : Saved) (hk : Applies k) (he : e.Is .expression)
    (hv : Named (split v k e).temps) :
    (split v k e).receiver.Is .expression ∧ (split v k e).rest.Is .expression := by
  obtain hs | ⟨j, m, o, keys, rfl, hm, hcall, hs⟩ := split_cases v k e
  · rw [hs] at hv ⊢
    have hvalue := hv v.value List.mem_cons_self
    exact ⟨is_keep hvalue he, hk _ (is_use hvalue)⟩
  · rw [hs] at hv ⊢
    have hthis := hv v.this List.mem_cons_self
    have hvalue := hv v.value (List.mem_cons_of_mem _ List.mem_cons_self)
    obtain ⟨ho, hget⟩ := he.get hm
    obtain ⟨-, -, hargs⟩ := (hk _ (is_use hvalue)).call hcall
    exact ⟨is_keep hvalue (hget _ (is_keep hthis ho)),
      hargs _ _ (is_method _ _ (is_use hvalue)) (is_use hthis)⟩

def Lowering.Expressions (d : Lowering) : Prop :=
  (∀ g ∈ d.guards, g.receiver.Is .expression) ∧ d.rest.Is .expression

theorem expressions_foldl_step (glue : NodeId → Glue) (hks : ∀ k ∈ ks, Applies k)
    (hd : Named d.temps → d.Expressions) (h : Named (ks.foldl (Lowering.step glue) d).temps) :
    (ks.foldl (Lowering.step glue) d).Expressions := by
  induction ks generalizing d with
  | nil => exact hd h
  | cons k ks ih =>
    obtain ⟨hk, hks⟩ := List.forall_mem_cons.mp hks
    refine ih hks (fun hn => ?_) h
    rw [Lowering.step] at hn ⊢
    split_ifs at hn ⊢
    · obtain ⟨hnd, hnv⟩ := named_append.mp hn
      obtain ⟨hguards, hrest⟩ := hd hnd
      obtain ⟨hr, hs⟩ := is_split (glue k.id).saved hk hrest hnv
      exact ⟨List.forall_mem_append.mpr ⟨hguards, List.forall_mem_singleton.mpr hr⟩, hs⟩
    · obtain ⟨hguards, hrest⟩ := hd hn
      exact ⟨hguards, hk _ hrest⟩

theorem is_guards {gs : List Guard} (h : ∀ g ∈ gs, g.receiver.Is .expression)
    (ht : t.Is .expression) : (plug (gs.map Guard.frame) t).Is .expression := by
  induction gs generalizing t with
  | nil => exact ht
  | cons g gs ih =>
    obtain ⟨hg, hgs⟩ := List.forall_mem_cons.mp h
    have hnull : (node g.glue.null (.made .nullLit none g.glue.src) []).Is .expression :=
      is_node.mpr ⟨_, .constant rfl, .nil⟩
    have hzero : (node g.glue.zero (.made .numberLit (some "0") g.glue.src) []).Is .expression :=
      is_node.mpr ⟨_, .number (by decide), .nil⟩
    have htest : g.test.Is .expression := is_node.mpr ⟨_, .binary rfl, .cons hg (.cons hnull .nil)⟩
    have hundefined : g.undefined.Is .expression := is_node.mpr ⟨_, .unary rfl, .cons hzero .nil⟩
    exact ih hgs (is_node.mpr ⟨_, .hook, .cons htest (.cons hundefined (.cons ht .nil))⟩)

theorem Lowering.Expressions.close (h : d.Expressions) : d.close.Is .expression :=
  is_guards (fun g hg => h.1 g (by simpa using hg)) h.2

theorem Lowering.Expressions.placed (h : d.Expressions) (hd : Receivable d.rest)
    (dot : NodeId) (src : Label) (ht : t.label.kind.isChain = true) (hg : (g.fill t).Is part)
    (hend : g.continues = false) (hy : d.isCalled g = true → Lexer.isIdentifier y.name = true) :
    (d.placed y dot src g).Is part := by
  rw [Lowering.placed]
  split_ifs with hc
  · have hname := hy hc
    obtain ⟨hcl, hm⟩ := Bool.and_eq_true_iff.mp hc
    obtain ⟨hkind, hleft⟩ := Bool.and_eq_true_iff.mp hcl
    have hcall : (node g.id g.label (t :: g.right)).Is part := by
      rwa [Frame.fill, List.isEmpty_iff.mp hleft] at hg
    obtain ⟨rfl, -, hargs⟩ := hcall.call (of_decide_eq_true hkind)
    obtain ⟨xs, gs, ⟨j, m, _ | ⟨o, keys⟩⟩⟩ := d
    · exact absurd rfl (hd.2 hm)
    · obtain ⟨ho, hget⟩ := h.2.get hm
      have hclose : (Lowering.close ⟨xs, gs, node j m (y.keep o :: keys)⟩).Is .expression :=
        Lowering.Expressions.close ⟨h.1, hget _ (is_keep hname ho)⟩
      exact hargs _ _ (is_method _ _ hclose) (is_use hname)
  · obtain ⟨q, hq, hne, hfill⟩ := hg.fill
    obtain rfl := hq.eq_expression ht (hne hend)
    exact hfill _ h.close

theorem is_declaring (hx : Named xs) (h : (f.fill t).Is part)
    (hf : f.label.kind.ownsStatements = true) : ((f.declaring xs).fill t).Is part := by
  obtain ⟨parts, rule, children⟩ := is_node.mp h
  obtain ⟨n, rfl, hrule⟩ := rule.owner hf
  obtain ⟨hlen, hall⟩ := forall₂_is_replicate.mp children
  refine is_node.mpr ⟨_, hrule (n + xs.length), forall₂_is_replicate.mpr ⟨?_, ?_⟩⟩
  · simp only [Frame.declaring, List.length_append, List.length_cons, List.length_map] at hlen ⊢
    omega
  · simp only [Frame.declaring, List.mem_append] at hall ⊢
    rintro u ((hu | hu) | hu)
    · exact hall u (.inl hu)
    · obtain ⟨y, hy, rfl⟩ := List.mem_map.mp hu
      exact is_declaration (hx y hy)
    · exact hall u (.inr hu)

/-! ## All chains -/

theorem Lowers.is (h : Lowers t c xs u) (hx : Named xs) (ht : t.Is part) : u.Is part := by
  obtain ⟨set, -, glue, y, dot, src⟩ := h
  rename_i x ks g f K M
  have hchain := isChain_tower (x := x) set.nonempty set.links
  have hend : g.continues = false := by simpa [endsChain] using set.ends
  have htemps : Named (lower glue x ks).temps := by
    rw [Lowering.declared] at hx
    split_ifs at hx
    · exact (named_append.mp hx).1
    · exact hx
  have hy : (lower glue x ks).isCalled g = true → Lexer.isIdentifier y.name = true := by
    intro hc
    rw [Lowering.declared, if_pos hc] at hx
    exact hx y (by simp)
  have hrest : Receivable (lower glue x ks).rest := receivable_foldl_step glue ks set.receiver
  rw [set.tree, List.cons_append, plug_cons] at ht
  obtain ⟨q, hq, hplug⟩ := ht.plug
  obtain ⟨r, hr, hne, -⟩ := hq.fill
  obtain rfl := hr.eq_expression hchain (hne hend)
  obtain ⟨hexp, happ⟩ := hr.tower set.links
  have hparts : (lower glue x ks).Expressions :=
    expressions_foldl_step glue happ (fun _ => ⟨List.forall_mem_nil _, hexp⟩) htemps
  have hplaced := hplug _ (hparts.placed hrest dot src hchain hq hend hy)
  rw [plug_append, plug_cons] at hplaced ⊢
  obtain ⟨p, hp, hM⟩ := hplaced.plug
  exact hM _ (is_declaring hx hp set.owner)

theorem LowersAll.is (h : LowersAll t cs xs u) (hx : Named xs) (ht : t.Is part) : u.Is part := by
  induction h with
  | nil => exact ht
  | cons first _ ih =>
    obtain ⟨hx, hy⟩ := named_append.mp hx
    exact ih hy (first.is hx ht)

end Grown

namespace Lower

open Grown

variable {xs : List Temp} {ts us : List Grown} {part : Part}

theorem LowersScripts.is (h : LowersScripts ts xs us) (hx : Named xs) (hts : ∀ t ∈ ts, t.Is part) :
    ∀ u ∈ us, u.Is part := by
  induction h with
  | nil => exact hts
  | cons first _ ih =>
    obtain ⟨hx, hy⟩ := named_append.mp hx
    obtain ⟨ht, hts⟩ := List.forall_mem_cons.mp hts
    exact List.forall_mem_cons.mpr ⟨first.is hx ht, ih hy hts⟩

theorem Draws.named {g g' : Names} (h : Draws g xs g') : Named xs := by
  intro x hx
  exact Names.isIdentifier_drawn g (h.names ▸ List.mem_map_of_mem hx)

end Lower

end ChainLowering
