import Mathlib.Tactic.SplitIfs
import ChainLowering.Proofs.Places
import ChainLowering.Proofs.TreeReader

/-!
# Two readers side by side

A text is read on its own and, by a second reader, as a part of a longer text.
`Follows x y r r' Q` says that whenever `x` goes through from `r`, so does `y`
from `r'`, and that `Q` holds of what comes of both. The second reader stands
where the first one does, moved by what comes before, and comes to a different
token only where the first one finds the end of input.

What the first reader finishes is recorded as a row of trees since some moment.
-/

namespace ChainLowering

namespace Reader

/-! ## Where both readers stand -/

/-- Where a text stands in a longer one. -/
structure Site where
  /-- Where the characters of the text begin. -/
  place : Nat → Prop
  /-- Number of bytes before the text. -/
  shift : Nat
  /-- What the longer text has in place of the end of input. -/
  rest : List Token
  rest_some : rest ≠ []
  rest_else : ∀ t ∈ rest.head?, t.tok ≠ .ident "else"
  /-- The trees that were finished before the text. -/
  below : List Tree

/-- What is left of the text and of the longer one. Only after a semicolon the next token may
differ. -/
inductive Border (S : Site) : List Token → List Token → Prop
  | last {e : Token} (eof : e.tok = .eof) : Border S [e] S.rest
  | next {t : Token} {ts us : List Token} (tok : t.tok ≠ .eof) (border : Border S ts us)
      (seen : t.tok ≠ .punct .semicolon → us.head? = ts.head?.map (Token.moved S.shift)) :
      Border S (t :: ts) (t.moved S.shift :: us)

/-- If `seen` holds, the next token is the same. -/
structure Beside (S : Site) (seen : Bool) (r r' : TreeReader) : Prop where
  order : Token.InOrder S.place r.lastStop r.tokens
  border : Border S r.tokens r'.tokens
  depth : r'.depth = r.depth
  made : r'.made = r.made.map (Tree.moved S.shift) ++ S.below
  sees : seen = true → r'.tokens.head? = r.tokens.head?.map (Token.moved S.shift)

/-- Since `r₀` at least one token has been taken, and the trees `ts` have been finished. -/
structure Since (S : Site) (r₀ : TreeReader) (ts : List Tree) (seen : Bool) (r r' : TreeReader) :
    Prop extends Beside S seen r r' where
  level : r.depth = r₀.depth
  stop : r'.lastStop = r.lastStop + S.shift
  begin_place : S.place r₀.current.start
  end_place : S.place r.lastStop
  trees : r.made = ts.reverse ++ r₀.made
  row : Tree.Row S.place r₀.current.start r.lastStop ts

variable {S : Site} {seen seen' : Bool} {r₀ r r' r₁ r₁' : TreeReader} {ts us : List Tree}
    {p : Punct} {t : Token}

theorem current_of_cons {toks : List Token} (h : r.tokens = t :: toks) : r.current = t := by
  simp [current, h]

namespace Beside

theorem weaken (h : Beside S seen r r') : Beside S false r r' := { h with sees := Bool.noConfusion }

theorem length_le (h : Beside S seen r r') : r.tokens.length ≤ r'.tokens.length := by
  have hb := h.border
  generalize r.tokens = toks, r'.tokens = toks' at hb ⊢
  induction hb with
  | last => exact List.length_pos_of_ne_nil S.rest_some
  | next _ _ _ ih => exact Nat.succ_le_succ ih

theorem exists_token (h : Beside S seen r r') : ∃ toks, r.tokens = r.current :: toks := by
  cases hr : r.tokens with
  | nil =>
    have hb := h.border
    rw [hr] at hb
    cases hb
  | cons t toks => exact ⟨toks, by rw [current_of_cons hr]⟩

theorem current_place (h : Beside S seen r r') : S.place r.current.start := by
  obtain ⟨toks, e⟩ := h.exists_token
  have ho := h.order
  rw [e] at ho
  exact ho.2.2.1

theorem le_current (h : Beside S seen r r') : r.lastStop ≤ r.current.start := by
  obtain ⟨toks, e⟩ := h.exists_token
  have ho := h.order
  rw [e] at ho
  exact ho.1

theorem current (h : Beside S true r r') : r'.current = r.current.moved S.shift := by
  obtain ⟨toks, e⟩ := h.exists_token
  have hs := h.sees rfl
  rw [e] at hs
  obtain ⟨toks', e'⟩ := List.head?_eq_some_iff.mp hs
  exact current_of_cons e'

theorem look (h : Beside S seen r r') (hr : r.current.tok ≠ .eof) : Beside S true r r' := by
  refine { h with sees := fun _ => ?_ }
  obtain ⟨toks, e⟩ := h.exists_token
  have hb := h.border
  rw [e] at hb
  generalize r'.tokens = toks' at hb
  cases hb with
  | last eof => exact absurd eof hr
  | next => rw [e]; rfl

theorem rest (h : Beside S seen r r') (hr : r.current.tok = .eof) : r'.tokens = S.rest := by
  obtain ⟨toks, e⟩ := h.exists_token
  have hb := h.border
  rw [e] at hb
  generalize r'.tokens = toks' at hb
  cases hb with
  | last => rfl
  | next tok => exact absurd hr tok

theorem take (h : Beside S true r r') (hr : r.current.tok ≠ .eof)
    (hsemi : seen' = true → r.current.tok ≠ .punct .semicolon) :
    Since S r [] seen' { r with tokens := r.tokens.tail, lastStop := r.current.stop }
      { r' with tokens := r'.tokens.tail, lastStop := r'.current.stop } := by
  obtain ⟨toks, e⟩ := h.exists_token
  have hb := h.border
  have ho := h.order
  have hcur := h.current
  rw [e] at hb ho
  generalize e' : r'.tokens = toks' at hb
  cases hb with
  | last eof => exact absurd eof hr
  | @next _ _ us _ border seen =>
    obtain ⟨-, hle, hstart, hstop, horder⟩ := ho
    refine { order := ?_, border := ?_, depth := h.depth, made := h.made, sees := fun hs => ?_
             level := rfl, stop := ?_, begin_place := hstart, end_place := hstop, trees := rfl
             row := .nil hle }
    · rw [e]
      exact horder
    · rw [e]
      exact border
    · rw [e]
      exact seen (hsemi hs)
    · rw [hcur]
      rfl

end Beside

namespace Since

theorem weaken (h : Since S r₀ ts seen r r') : Since S r₀ ts false r r' :=
  { h with sees := Bool.noConfusion }

theorem look (h : Since S r₀ ts seen r r') (hr : r.current.tok ≠ .eof) : Since S r₀ ts true r r' :=
  { h with toBeside := h.toBeside.look hr }

theorem trans (h : Since S r₀ ts seen r r') (h' : Since S r us seen' r₁ r₁') :
    Since S r₀ (ts ++ us) seen' r₁ r₁' where
  toBeside := h'.toBeside
  level := h'.level.trans h.level
  stop := h'.stop
  begin_place := h.begin_place
  end_place := h'.end_place
  trees := by rw [h'.trees, h.trees, List.reverse_append, List.append_assoc]
  row := h.row.append h.le_current h'.row

theorem took (h : Since S r₀ ts seen r r') (h' : Since S r [] seen' r₁ r₁') :
    Since S r₀ ts seen' r₁ r₁' := by
  have ht := h.trans h'
  rwa [List.append_nil] at ht

end Since

/-! ## Readers that go through alike -/

variable {α β : Type} {x y : TreeRead α} {f g : α → TreeRead β}
    {Q : α → TreeReader → TreeReader → Prop} {R : β → TreeReader → TreeReader → Prop}

def Follows (x y : TreeRead α) (r r' : TreeReader) (Q : α → TreeReader → TreeReader → Prop) :
    Prop :=
  ∀ v r₁, x.run r = (.ok v, r₁) → ∃ r₁', y.run r' = (.ok v, r₁') ∧ Q v r₁ r₁'

theorem Follows.mono {P : α → TreeReader → TreeReader → Prop} (h : Follows x y r r' P)
    (hPQ : ∀ v r₁ r₁', P v r₁ r₁' → Q v r₁ r₁') :
    Follows x y r r' Q := by
  intro v r₁ hx
  obtain ⟨r₁', hy, hP⟩ := h v r₁ hx
  exact ⟨r₁', hy, hPQ _ _ _ hP⟩

theorem run_bind_ok {v : β} {r₁ : TreeReader} (h : (x >>= f).run r = (.ok v, r₁)) :
    ∃ u r₂, x.run r = (.ok u, r₂) ∧ (f u).run r₂ = (.ok v, r₁) := by
  rw [ExceptT.run_bind] at h
  change StateT.bind x.run _ r = _ at h
  simp only [StateT.bind] at h
  rcases hx : x.run r with ⟨_ | u, r₂⟩ <;> rw [hx] at h
  · cases h
  · exact ⟨u, r₂, rfl, h⟩

theorem run_bind_of_ok {u : α} (h : x.run r = (.ok u, r₁)) : (x >>= f).run r = (f u).run r₁ := by
  rw [ExceptT.run_bind]
  change StateT.bind x.run _ r = _
  simp only [StateT.bind]
  rw [h]
  rfl

theorem Follows.bind (h : Follows x y r r' fun v r₁ r₁' => Follows (f v) (g v) r₁ r₁' R) :
    Follows (x >>= f) (y >>= g) r r' R := by
  intro v r₁ hx
  obtain ⟨u, r₂, hx, hf⟩ := run_bind_ok hx
  obtain ⟨r₂', hy, hg⟩ := h u r₂ hx
  obtain ⟨r₁', hg, hR⟩ := hg v r₁ hf
  exact ⟨r₁', (run_bind_of_ok hy).trans hg, hR⟩

theorem follows_pure {v : α} (h : Q v r r') : Follows (pure v) (pure v) r r' Q := by
  intro u r₁ hx
  cases hx
  exact ⟨r', rfl, h⟩

theorem follows_throw {e : Halt ReadError} : Follows (throw e) y r r' Q :=
  fun _ _ hx => nomatch hx

theorem follows_unexpected {e : Expected} : Follows (unexpected e) y r r' Q :=
  fun _ _ hx => nomatch hx

theorem follows_ite {c : Prop} [Decidable c] {x' y' : TreeRead α} (hx : c → Follows x y r r' Q)
    (hy : ¬ c → Follows x' y' r r' Q) :
    Follows (if c then x else x') (if c then y else y') r r' Q := by
  split_ifs with hc
  · exact hx hc
  · exact hy hc

theorem follows_get {f g : TreeReader → TreeRead β} (hf : Follows (f r) (g r') r r' R) :
    Follows (get >>= f) (get >>= g) r r' R := hf

/-! ## Tokens -/

theorem follows_peek {f g : Token → TreeRead β} (h : Beside S true r r')
    (hf : Follows (f r.current) (g (r.current.moved S.shift)) r r' R) :
    Follows (peek >>= f) (peek >>= g) r r' R := by
  rw [← h.current] at hf
  exact hf

theorem follows_position {f g : Nat → TreeRead β} (h : Beside S true r r')
    (hf : Follows (f r.current.start) (g (r.current.start + S.shift)) r r' R) :
    Follows (position >>= f) (position >>= g) r r' R := by
  have hcur := congrArg Token.start h.current
  rw [Token.start_moved] at hcur
  rw [← hcur] at hf
  exact hf

theorem follows_at? {f g : Bool → TreeRead β} (h : Beside S true r r')
    (hf : Follows (f (r.current.tok = .punct p)) (g (r.current.tok = .punct p)) r r' R) :
    Follows (at? p >>= f) (at? p >>= g) r r' R := by
  rw [at?, bind_assoc, bind_assoc]
  exact follows_peek h hf

theorem follows_atWord {w : String} {f g : Bool → TreeRead β} (h : Beside S true r r')
    (hf : Follows (f (r.current.tok = .ident w)) (g (r.current.tok = .ident w)) r r' R) :
    Follows (atWord w >>= f) (atWord w >>= g) r r' R := by
  rw [atWord, bind_assoc, bind_assoc]
  exact follows_peek h hf

theorem follows_atEnd {f g : Bool → TreeRead β} (h : Beside S true r r')
    (hf : Follows (f (r.current.tok = .eof)) (g (r.current.tok = .eof)) r r' R) :
    Follows (atEnd >>= f) (atEnd >>= g) r r' R := by
  rw [atEnd, bind_assoc, bind_assoc]
  exact follows_peek h hf

theorem follows_else {f g : Bool → TreeRead β} (h : Beside S seen r r')
    (hf : Follows (f (r.current.tok = .ident "else")) (g (r.current.tok = .ident "else")) r r' R) :
    Follows (atWord "else" >>= f) (atWord "else" >>= g) r r' R := by
  by_cases hr : r.current.tok = .eof
  · have hcur : r'.current.tok ≠ .ident "else" := by
      refine S.rest_else _ ?_
      rw [current, h.rest hr, List.headD_eq_head?_getD, List.head?_eq_some_head S.rest_some]
      rfl
    rw [hr, decide_eq_false Tok.noConfusion] at hf
    change Follows (f (r.current.tok = .ident "else")) (g (r'.current.tok = .ident "else")) r r' R
    rwa [hr, decide_eq_false hcur, decide_eq_false Tok.noConfusion]
  · exact follows_atWord (h.look hr) hf

theorem run_advance (h : r.current.tok ≠ .eof) :
    advance.run r = (.ok r.current,
      { r with tokens := r.tokens.tail, lastStop := r.current.stop }) := by
  change ((if r.current.tok ≠ .eof then (do
    modify fun r' => { r' with tokens := r'.tokens.tail, lastStop := r.current.stop }
    return r.current) else return r.current : TreeRead Token).run r) = _
  rw [if_pos h]
  rfl

theorem follows_advance (seen : Bool) {x y : TreeRead β} (h : Beside S true r r')
    (hr : r.current.tok ≠ .eof) (hsemi : seen = true → r.current.tok ≠ .punct .semicolon)
    (hx : ∀ r₁ r₁', Since S r [] seen r₁ r₁' → Follows x y r₁ r₁' R) :
    Follows (advance >>= fun _ => x) (advance >>= fun _ => y) r r' R := by
  intro v r₁ hrun
  have hr' : r'.current.tok ≠ .eof := by rwa [h.current]
  rw [run_bind_of_ok (run_advance hr)] at hrun
  obtain ⟨r₁', hy, hR⟩ := hx _ _ (h.take hr hsemi) v r₁ hrun
  exact ⟨r₁', (run_bind_of_ok (run_advance hr')).trans hy, hR⟩

theorem follows_take {k : Tok} {x y : TreeRead β} (h : Beside S true r r') (hk : r.current.tok = k)
    (heof : k ≠ .eof) (hsemi : k ≠ .punct .semicolon)
    (hx : ∀ r₁ r₁', Since S r [] true r₁ r₁' → Follows x y r₁ r₁' R) :
    Follows (advance >>= fun _ => x) (advance >>= fun _ => y) r r' R :=
  follows_advance true h (hk ▸ heof) (fun _ => hk ▸ hsemi) hx

theorem follows_eat_seen (seen : Bool) {f g : Bool → TreeRead β} (h : Beside S true r r')
    (hseen : seen = true → p ≠ .semicolon)
    (htrue : ∀ r₁ r₁', Since S r [] seen r₁ r₁' → Follows (f true) (g true) r₁ r₁' R)
    (hfalse : r.current.tok ≠ .punct p → Follows (f false) (g false) r r' R) :
    Follows (eat p >>= f) (eat p >>= g) r r' R := by
  rw [eat, bind_assoc, bind_assoc]
  refine follows_at? h ?_
  by_cases hp : r.current.tok = .punct p
  · rw [decide_eq_true hp, if_pos rfl, bind_assoc, bind_assoc]
    refine follows_advance seen h (by rw [hp]; nofun) (fun hs => ?_) fun r₁ r₁' h₁ => ?_
    · rw [hp]
      exact fun e => hseen hs (Tok.punct.inj e)
    · rw [pure_bind, pure_bind]
      exact htrue r₁ r₁' h₁
  · rw [decide_eq_false hp, if_neg Bool.noConfusion, pure_bind, pure_bind]
    exact hfalse hp

theorem follows_eat {f g : Bool → TreeRead β} (h : Beside S true r r') (hp : p ≠ .semicolon)
    (htrue : ∀ r₁ r₁', Since S r [] true r₁ r₁' → Follows (f true) (g true) r₁ r₁' R)
    (hfalse : Follows (f false) (g false) r r' R) : Follows (eat p >>= f) (eat p >>= g) r r' R :=
  follows_eat_seen true h (fun _ => hp) htrue fun _ => hfalse

theorem follows_expect {f g : Unit → TreeRead β} (h : Beside S true r r') (hp : p ≠ .semicolon)
    (hf : ∀ r₁ r₁', Since S r [] true r₁ r₁' → Follows (f ()) (g ()) r₁ r₁' R) :
    Follows (expect p >>= f) (expect p >>= g) r r' R := by
  rw [expect, bind_assoc, bind_assoc]
  refine follows_eat h hp (fun r₁ r₁' h₁ => ?_) ?_
  · simpa using hf r₁ r₁' h₁
  · exact .bind follows_unexpected

theorem Since.skip {x y : TreeRead β} (h : Since S r₀ ts true r r')
    (hx : ∀ r₁ r₁', Since S r₀ ts false r₁ r₁' → Follows x y r₁ r₁' R) :
    Follows (eat .semicolon >>= fun _ => x) (eat .semicolon >>= fun _ => y) r r' R :=
  follows_eat_seen false h.toBeside Bool.noConfusion (fun r₁ r₁' h₁ => hx r₁ r₁' (h.took h₁))
    fun _ => hx r r' h.weaken

theorem follows_identifier {f g : String → TreeRead β} (h : Beside S true r r')
    (hf : ∀ w r₁ r₁', Since S r [] true r₁ r₁' → Follows (f w) (g w) r₁ r₁' R) :
    Follows (identifier >>= f) (identifier >>= g) r r' R := by
  rw [identifier, bind_assoc, bind_assoc]
  refine follows_peek h ?_
  rw [Token.tok_moved]
  cases ht : r.current.tok with
  | ident w =>
    have htake : Follows ((do let _ ← advance; return w) >>= f) ((do let _ ← advance; return w) >>=
        g) r r' R := by
      rw [bind_assoc, bind_assoc]
      refine follows_take h ht Tok.noConfusion Tok.noConfusion fun r₁ r₁' h₁ => ?_
      rw [pure_bind, pure_bind]
      exact hf w r₁ r₁' h₁
    dsimp only
    split
    · exact .bind (.bind follows_unexpected)
    · exact htake
  | _ => exact .bind follows_unexpected

theorem follows_propertyName {f g : String → TreeRead β} (h : Beside S true r r')
    (hf : ∀ w r₁ r₁', Since S r [] true r₁ r₁' → Follows (f w) (g w) r₁ r₁' R) :
    Follows (propertyName >>= f) (propertyName >>= g) r r' R := by
  rw [propertyName, bind_assoc, bind_assoc]
  refine follows_peek h ?_
  rw [Token.tok_moved]
  cases ht : r.current.tok with
  | ident w =>
    simp only [bind_assoc, pure_bind]
    exact follows_take h ht Tok.noConfusion Tok.noConfusion fun r₁ r₁' h₁ => hf w r₁ r₁' h₁
  | _ => exact .bind follows_unexpected

/-! ## Trees -/

theorem follows_push {l l' : Label} {n : Nat} {made : List Tree}
    {Q : Unit → TreeReader → TreeReader → Prop} (hl : l' = l.moved S.shift)
    (hmade : r.made = ts.reverse ++ made)
    (hr' : r'.made = r.made.map (Tree.moved S.shift) ++ S.below) (hn : n = ts.length)
    (h : Q () { r with made := .of l ts :: made }
      { r' with made := (.of l ts :: made).map (Tree.moved S.shift) ++ S.below }) :
        Follows (push l n) (push l' n) r r' Q := by
  have hlen : n = ts.reverse.length := by rw [hn, List.length_reverse]
  intro v r₁ hx
  obtain rfl := (Prod.mk.inj hx).2
  refine ⟨_, rfl, ?_⟩
  dsimp only
  rw [hr', hmade, hlen, hl]
  simpa [List.take_append, List.drop_append] using h

theorem Since.finishOnto (us : List Tree) {l : Label} {start n : Nat} (h : Since S r₁ ts seen r r')
    (hmade : r₁.made = us.reverse ++ r₀.made) (hlevel : r₁.depth = r₀.depth)
    (hbegin : S.place r₀.current.start) (hle : r₀.current.start ≤ r₁.current.start)
    (hus : Tree.placed l (us ++ ts) = Tree.placed l ts) (hn : n = (us ++ ts).length)
    (hstart : start = r₀.current.start) :
    Follows (finish l start n) (finish l (start + S.shift) n) r r' fun _ r₂ r₂' => ∃ t,
      Since S r₀ [t] seen r₂ r₂' := by
  have htrees : r.made = (us ++ ts).reverse ++ r₀.made := by
    rw [h.trees, hmade, List.reverse_append, List.append_assoc]
  intro v r₂ hx
  refine follows_push (Q := fun _ r₂ r₂' => ∃ t, Since S r₀ [t] seen r₂ r₂')
    ?_ htrees h.made hn ?_ v r₂ hx
  · rw [h.stop]
    rfl
  · refine ⟨_, { order := h.order, border := h.border, depth := h.depth, made := rfl, sees := h.sees
                 level := h.level.trans hlevel, stop := h.stop, begin_place := hbegin
                 end_place := h.end_place, trees := rfl, row := ?_ }⟩
    refine .cons le_rfl (congrArg some hstart) rfl hbegin h.end_place ?_ (.nil le_rfl)
    have hrow : Tree.Row S.place r₀.current.start r.lastStop (Tree.placed l (us ++ ts)) := by
      rw [hus]
      exact (h.row.filter _).mono hle
    exact hrow

theorem Since.finish {l : Label} {start n : Nat} (h : Since S r₀ ts seen r r') (hn : n = ts.length)
    (hstart : start = r₀.current.start) :
    Follows (finish l start n) (finish l (start + S.shift) n) r r' fun _ r₁ r₁' => ∃ t,
      Since S r₀ [t] seen r₁ r₁' :=
  h.finishOnto [] rfl rfl h.begin_place le_rfl rfl hn hstart

theorem run_counted_iff {x : TreeRead Unit} {n : Nat} :
    (counted x).run r = (.ok n, r₁) ↔
      x.run r = (.ok (), r₁) ∧ n = r₁.made.length - r.made.length := by
  change (x >>= fun _ => (do return (← get).made.length - r.made.length : TreeRead Nat)).run r = _ ↔
    _
  constructor
  · intro h
    obtain ⟨u, r₂, hx, h⟩ := run_bind_ok h
    obtain ⟨e, rfl⟩ := Prod.mk.inj h
    exact ⟨hx, (Except.ok.inj e).symm⟩
  · rintro ⟨hx, rfl⟩
    rw [run_bind_of_ok hx]
    rfl

theorem Since.counted {x y : TreeRead Unit} {f g : Nat → TreeRead β} (h : Since S r₀ ts seen r r')
    (hx : Follows x y r r' fun _ r₁ r₁' => ∃ us b,
      Since S r₀ (ts ++ us) b r₁ r₁' ∧ Follows (f us.length) (g us.length) r₁ r₁' R) :
    Follows (counted x >>= f) (counted y >>= g) r r' R := by
  refine .bind fun n r₁ hrun => ?_
  obtain ⟨hdone, rfl⟩ := run_counted_iff.mp hrun
  obtain ⟨r₁', hdone', us, _, h₁, hR⟩ := hx () r₁ hdone
  have hlen : r₁.made.length - r.made.length = us.length := by
    simp [h₁.trees, h.trees]
  have hlen' : r₁'.made.length - r'.made.length = us.length := by
    simp [h₁.made, h.made, h₁.trees, h.trees]
  refine ⟨r₁', run_counted_iff.mpr ⟨hdone', hlen.trans hlen'.symm⟩, ?_⟩
  rwa [hlen]

/-- Finishes one tree. -/
def Adds (S : Site) (seen : Bool) (x : TreeRead Unit) : Prop :=
  ∀ r r', Beside S true r r' → Follows x x r r' fun _ r₁ r₁' => ∃ t, Since S r [t] seen r₁ r₁'

theorem Adds.weaken {x : TreeRead Unit} (hx : Adds S seen x) : Adds S false x :=
  fun r r' h => (hx r r' h).mono fun _ _ _ ⟨t, ht⟩ => ⟨t, ht.weaken⟩

theorem Adds.since {x : TreeRead Unit} (hx : Adds S seen x) (h : Since S r₀ ts true r r') :
    Follows x x r r' fun _ r₁ r₁' => ∃ t, Since S r₀ (ts ++ [t]) seen r₁ r₁' :=
  (hx r r' h.toBeside).mono fun _ _ _ ⟨t, ht⟩ => ⟨t, h.trans ht⟩

theorem Adds.then {x : TreeRead Unit} {f g : Unit → TreeRead β} (hx : Adds S seen x)
    (h : Since S r₀ ts true r r')
    (hf : ∀ t r₁ r₁', Since S r₀ (ts ++ [t]) seen r₁ r₁' → Follows (f ()) (g ()) r₁ r₁' R) :
    Follows (x >>= f) (x >>= g) r r' R :=
  .bind ((hx.since h).mono fun _ r₁ r₁' ⟨t, ht⟩ => hf t r₁ r₁' ht)

theorem Adds.first {x : TreeRead Unit} {f g : Unit → TreeRead β} (hx : Adds S seen x)
    (h : Beside S true r r') (hf : ∀ t r₁ r₁', Since S r [t] seen r₁ r₁' →
      Follows (f ()) (g ()) r₁ r₁' R) : Follows (x >>= f) (x >>= g) r r' R :=
  .bind ((hx r r' h).mono fun _ r₁ r₁' ⟨t, ht⟩ => hf t r₁ r₁' ht)

theorem adds_nameNode : Adds S true nameNode := by
  intro r r' h
  refine follows_position h (follows_identifier h fun w r₁ r₁' h₁ => ?_)
  exact h₁.finish rfl rfl

/-! ## Repetition -/

section
variable {γ : Type} {step step' : γ → TreeRead (Option γ)} {I : γ → TreeReader → TreeReader → Prop}
    {J : TreeReader → TreeReader → Prop}

theorem follows_iterateTo
    (hstep : ∀ c r r', I c r r' → Follows (step c) (step' c) r r' fun o r₁ r₁' =>
      o.elim (J r₁ r₁') fun d => I d r₁ r₁') (toks toks' : List Token)
        (hlen : toks.length ≤ toks'.length) (c : γ) (h : I c r r') :
    Follows (iterateTo step toks c) (iterateTo step' toks' c) r r' fun _ => J := by
  induction toks generalizing toks' c r r' with
  | nil => exact follows_throw
  | cons t toks ih =>
    cases toks' with
    | nil => cases hlen
    | cons t' toks' =>
      refine .bind ((hstep c r r' h).mono fun o r₁ r₁' ho => ?_)
      cases o with
      | none => exact follows_pure ho
      | some d => exact ih toks' (Nat.le_of_succ_le_succ hlen) d ho

theorem follows_iterate
    (hstep : ∀ c r r', I c r r' → Follows (step c) (step' c) r r' fun o r₁ r₁' =>
      o.elim (J r₁ r₁') fun d => I d r₁ r₁') (c : γ) (h : I c r r') (hr : Beside S seen r r') :
        Follows (iterate step c) (iterate step' c) r r' fun _ => J :=
  follows_iterateTo hstep r.tokens r'.tokens hr.length_le c h

end

theorem follows_repeatedly {step step' : TreeRead Bool} {I J : TreeReader → TreeReader → Prop}
    (hstep : ∀ r r', I r r' → Follows step step' r r' fun b r₁ r₁' => if b then I r₁ r₁'
      else J r₁ r₁')
    (h : I r r') (hr : Beside S seen r r') :
    Follows (repeatedly step) (repeatedly step') r r' fun _ => J := by
  refine follows_iterate (I := fun _ => I)
    (fun _ r r' h => .bind ((hstep r r' h).mono fun b r₁ r₁' hb => ?_)) () h hr
  cases b with
  | true => exact follows_pure hb
  | false => exact follows_pure hb

theorem Since.separated {item : TreeRead Unit} (h : Since S r₀ ts true r r') (close : Punct)
    (hclose : close ≠ .semicolon) (hx : Adds S true item) :
    Follows (separated close item) (separated close item) r r'
      fun _ r₁ r₁' => ∃ us, Since S r₀ (ts ++ us) true r₁ r₁' := by
  refine .bind ((follows_repeatedly (I := fun r r' => ∃ us, Since S r₀ (ts ++ us) true r r')
    (J := fun r r' => ∃ us, Since S r₀ (ts ++ us) true r r')
      ?_ ⟨[], by rwa [List.append_nil]⟩ h.toBeside).mono ?_)
  · rintro r r' ⟨us, h⟩
    refine follows_at? h.toBeside (follows_ite (fun _ => follows_pure ⟨us, h⟩) fun _ => ?_)
    refine hx.then h fun t r₁ r₁' h₁ => ?_
    rw [List.append_assoc] at h₁
    rw [← bind_pure (eat .comma)]
    refine follows_eat h₁.toBeside nofun (fun r₂ r₂' h₂ => ?_) ?_
    · exact follows_pure ⟨us ++ [t], h₁.took h₂⟩
    · exact follows_pure ⟨us ++ [t], h₁⟩
  · rintro - r₁ r₁' ⟨us, h₁⟩
    rw [← bind_pure (expect close)]
    exact follows_expect h₁.toBeside hclose fun r₂ r₂' h₂ => follows_pure ⟨us, h₁.took h₂⟩

/-! ## Nesting -/

theorem adds_deeper {x : TreeRead Unit} (hx : Adds S seen x) : Adds S seen (deeper x) := by
  intro r r' h v r₁ hrun
  have hentered : Beside S true r.enter r'.enter :=
    ⟨h.order, h.border, congrArg (· + 1) h.depth, h.made, h.sees⟩
  by_cases hd : r.depth + 1 ≤ maxParseDepth
  · rcases hin : x.run r.enter with ⟨e, r₂⟩
    rw [run_deeper_ok hd, hin] at hrun
    obtain ⟨rfl, rfl⟩ := Prod.mk.inj hrun
    obtain ⟨r₂', hin', t, h₂⟩ := hx _ _ hentered v r₂ hin
    rw [run_deeper_ok (h.depth ▸ hd), hin']
    have hlevel : r₂.depth - 1 = r.depth := by rw [h₂.level]; rfl
    have hbeside : Beside S seen r₂.leave r₂'.leave :=
      ⟨h₂.order, h₂.border, congrArg (· - 1) h₂.depth, h₂.made, h₂.sees⟩
    exact ⟨_, rfl, t, hbeside, hlevel, h₂.stop, h₂.begin_place, h₂.end_place, h₂.trees, h₂.row⟩
  · rw [run_deeper_full (Nat.lt_of_not_le hd)] at hrun
    cases hrun

end Reader

end ChainLowering
