import ChainLowering.Proofs.Descent
import ChainLowering.Proofs.Forest
import ChainLowering.Proofs.NurserySound
import ChainLowering.Proofs.Lines
import ChainLowering.Proofs.Rounds

/-!
# Texts one after the other

Two texts with the end of a line between them are read as the one and then the
other, if the first has nothing left open, which a semicolon at its end tells.
-/

namespace ChainLowering

open Grown
open Lexer (bytes)

namespace Reader

variable {m n : Nat} {r r₁ r₂ : TreeReader} {us : List Token} {e : Token} {toks : List Token}

theorem run_scriptStep_else {t : Token} (ht : t.tok = .ident "else") (toks : List Token) :
    (scriptStep.run { tokens := t :: toks, made := [] }).1 =
      .error (.error (.unexpected .identifier (.ident "else") t.start)) := by
  cases t with
  | mk tok start stop =>
    obtain rfl : tok = .ident "else" := ht
    rfl

theorem head_ne_else (h : Rounds scriptStep m { tokens := toks, made := [] } r)
    (hend : r.current.tok = .eof) :
    ∀ t ∈ toks.head?, t.tok ≠ .ident "else" := by
  intro t ht helse
  obtain ⟨toks, rfl⟩ := List.head?_eq_some_iff.mp ht
  cases h with
  | none =>
    have hcur : t.tok = .eof := hend
    rw [hcur] at helse
    cases helse
  | next first =>
    have hstop := run_scriptStep_else helse toks
    rw [first] at hstop
    cases hstop

/-- Rounds over a text that ends with a semicolon, and then over the text after it. -/
theorem rounds_append {P Q : Nat → Prop} {k : Nat} {us vs : List Token} {e f : Token}
    (he : e.tok = .eof) (hf : f.tok = .eof) (hus : ∀ u ∈ us, u.tok ≠ .eof)
    (hvs : ∀ v ∈ vs, v.tok ≠ .eof) (hsemi : ∀ u ∈ us.getLast?, u.tok = .punct .semicolon)
    (horder : Token.InOrder P 0 (us ++ [e])) (horder' : Token.InOrder Q 0 (vs ++ [f])) (hP : P 0)
    (hQ : Q 0) (h₁ : Rounds scriptStep m { tokens := us ++ [e], made := [] } r₁)
    (hend₁ : r₁.current.tok = .eof)
    (h₂ : Rounds scriptStep n { tokens := vs ++ [f], made := [] } r₂)
    (hend₂ : r₂.current.tok = .eof) :
    ∃ r, Rounds scriptStep (m + n) { tokens := us ++ (vs ++ [f]).map (Token.moved k), made := [] }
      r ∧ r.current.tok = .eof ∧ r.made = r₂.made.map (Tree.moved k) ++ r₁.made := by
  let S : Site := {
    place := P
    shift := 0
    rest := (vs ++ [f]).map (Token.moved k)
    rest_some := by simp
    rest_else := by
      have helse := head_ne_else h₂ hend₂
      intro t ht
      rw [List.head?_map] at ht
      obtain ⟨u, hu, rfl⟩ := Option.map_eq_some_iff.mp ht
      exact helse u hu
    below := [] }
  have hborder : Border S (us ++ [e]) (us ++ (vs ++ [f]).map (Token.moved k)) := by
    have h := border_append (S := S) he hus fun u hu hne => absurd (hsemi u hu) hne
    simpa [S] using h
  have hrows : Rows S { tokens := us ++ [e], made := [] } [] { tokens := us ++ [e], made := [] }
      { tokens := us ++ (vs ++ [f]).map (Token.moved k), made := [] } :=
    ⟨⟨horder, hborder, rfl, rfl, Bool.noConfusion⟩, rfl, hP, rfl, .nil le_rfl⟩
  obtain ⟨r₁', ts, hrounds₁, hrows₁⟩ := hrows.rounds h₁
  have hmade : r₁'.made = r₁.made := by simpa [S] using hrows₁.made
  have hdepth : r₁'.depth = 0 := hrows₁.depth.trans hrows₁.level
  -- the second reader stands where the second text begins, on top of the statements of the first
  obtain ⟨r₂', us', hrounds₂, hrows₂⟩ :=
    (rows_whole r₁' hf hvs horder' hQ (hrows₁.rest hend₁) hdepth).rounds h₂
  refine ⟨r₂', hrounds₁.trans hrounds₂, ?_, ?_⟩
  · rw [current_of_cons (hrows₂.rest hend₂)]
    exact hf
  · rw [← hmade]
    exact hrows₂.made

end Reader

theorem readTrees_append {s₁ s₂ : String} {t₁ t₂ : Tree} (h₁ : readTrees s₁ = (.ok (), [t₁]))
    (h₂ : readTrees s₂ = (.ok (), [t₂]))
    (hsemi : ∀ ts, Lexer.tokens s₁ = .ok ts → ∀ t ∈ ts.dropLast.getLast?,
      t.tok = .punct .semicolon) :
    ∃ t, readTrees (s₁ ++ "\n" ++ s₂) = (.ok (), [t]) ∧
      t.children = t₁.children ++ t₂.children.map (Tree.moved (bytes s₁.toList + 1)) := by
  obtain ⟨toks₁, m, r₁, htoks₁, hm, hrounds₁, hend₁, rfl⟩ := Reader.readTrees_iff.mp h₁
  obtain ⟨toks₂, n, r₂, htoks₂, hn, hrounds₂, hend₂, rfl⟩ := Reader.readTrees_iff.mp h₂
  have htoks := Lexer.tokens_append htoks₁ htoks₂
  have hsemi := hsemi _ htoks₁
  have horder₁ := Lexer.inOrder_tokens htoks₁
  have horder₂ := Lexer.inOrder_tokens htoks₂
  obtain ⟨us, e, rfl, he, hus⟩ := Lexer.last_tokens htoks₁
  obtain ⟨vs, f, rfl, hf, hvs⟩ := Lexer.last_tokens htoks₂
  rw [List.dropLast_concat] at htoks hsemi
  obtain ⟨r, hrounds, hend, hmade⟩ :=
    Reader.rounds_append (k := bytes s₁.toList + 1) he hf hus hvs hsemi horder₁ horder₂
    ⟨[], _, rfl, rfl⟩ ⟨[], _, rfl, rfl⟩ hrounds₁ hend₁ hrounds₂ hend₂
  refine ⟨r.scriptTree, Reader.readTrees_iff.mpr ⟨_, m + n, r, htoks, ?_, hrounds, hend, rfl⟩, ?_⟩
  · simp only [List.length_append, List.length_map, List.length_singleton] at hm hn ⊢
    omega
  · simp [Reader.scriptTree, hmade]

namespace Arena

variable {a a₁ a₂ b₁ b₂ : Arena} {s₁ s₂ : String} {r₁ r₂ : Ref}

theorem tree_read {b : Arena} {source : String} {r : Ref} (h : a.read source = (.ok r, b)) :
    readTrees source = (.ok (), [b.tree r]) ∧ (b.tree r).kind? = some .script := by
  obtain ⟨g, rfl, htree, hscript, hholds, -⟩ := read_holds (Forest.holds_all a) h
  rw [tree_eq hholds]
  exact ⟨htree, hscript.kind?_eq rfl⟩

/-- If the first text has no tokens or ends with a semicolon, the statements of both texts are read
one after the other. Those of the second stand where the first text and the end of its line are
over. -/
theorem read_append (h₁ : a₁.read s₁ = (.ok r₁, b₁)) (h₂ : a₂.read s₂ = (.ok r₂, b₂))
    (hsemi : ∀ ts, Lexer.tokens s₁ = .ok ts → ∀ t ∈ ts.dropLast.getLast?, t.tok = .punct .semicolon)
    (a : Arena) :
    ∃ r b, a.read (s₁ ++ "\n" ++ s₂) = (.ok r, b) ∧ (b.tree r).kind? = some .script ∧
      (b.tree r).children = (b₁.tree r₁).children ++
        (b₂.tree r₂).children.map (Tree.moved (bytes s₁.toList + 1)) := by
  obtain ⟨t, ht, hchildren⟩ := readTrees_append (tree_read h₁).1 (tree_read h₂).1 hsemi
  rcases hr : a.read (s₁ ++ "\n" ++ s₂) with ⟨result, b⟩
  obtain ⟨r, rfl⟩ : ∃ r, result = .ok r := by
    obtain ⟨r, c, hread⟩ := a.exists_read ht
    rw [hr] at hread
    exact ⟨r, (Prod.mk.inj hread).1⟩
  obtain ⟨htree, hkind⟩ := tree_read hr
  obtain rfl : t = b.tree r := by
    rw [ht] at htree
    simpa using htree
  exact ⟨r, b, rfl, hkind, hchildren⟩

theorem read_append_sample : ∃ r₁ b₁ r₂ b₂ r b, ({} : Arena).read "x; //é" = (.ok r₁, b₁) ∧
    ({} : Arena).read "z" = (.ok r₂, b₂) ∧
    (∀ ts, Lexer.tokens "x; //é" = .ok ts → ∀ t ∈ ts.dropLast.getLast?, t.tok = .punct .semicolon) ∧
    ({} : Arena).read ("x; //é" ++ "\n" ++ "z") = (.ok r, b) ∧ (b.tree r).kind? = some .script ∧
    (b.tree r).children = (b₁.tree r₁).children ++ (b₂.tree r₂).children.map (Tree.moved 8) := by
  have hbytes : bytes "x; //é".toList + 1 = 8 := by decide
  have hlast : ∀ ts ∈ (Lexer.tokens "x; //é").toOption, ∀ t ∈ ts.dropLast.getLast?,
      t.tok = .punct .semicolon := by decide +kernel
  have hsemi : ∀ ts, Lexer.tokens "x; //é" = .ok ts → ∀ t ∈ ts.dropLast.getLast?,
      t.tok = .punct .semicolon := fun ts hts => hlast ts (by rw [hts]; rfl)
  have hread₁ : ∃ r b, ({} : Arena).read "x; //é" = (.ok r, b) ∧ b.size = 3 :=
    exists_of_read (by decide +kernel)
  have hread₂ : ∃ r b, ({} : Arena).read "z" = (.ok r, b) ∧ b.size = 3 :=
    exists_of_read (by decide +kernel)
  obtain ⟨r₁, b₁, h₁, -⟩ := hread₁
  obtain ⟨r₂, b₂, h₂, -⟩ := hread₂
  obtain ⟨r, b, hr, hkind, hchildren⟩ := read_append h₁ h₂ hsemi {}
  rw [hbytes] at hchildren
  exact ⟨r₁, b₁, r₂, b₂, r, b, h₁, h₂, hsemi, hr, hkind, hchildren⟩

end Arena

end ChainLowering
