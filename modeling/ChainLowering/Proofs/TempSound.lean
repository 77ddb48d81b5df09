import ChainLowering.Proofs.LowerRules
import ChainLowering.Proofs.WalkSound

/-!
# Temporaries

A temporary is declared right before the statement, and then an expression is
kept in it. The expression stands in a tree of its own or in the one that the
declaration goes to. `Since` says what else has happened since lowering of
the chain began: names were drawn, one for each temporary, and that is all.
-/

namespace ChainLowering

open Grown Arena

namespace NameSource

variable {σ : Type} [NameSource σ]

def after : Nat → σ → σ
  | 0, g => g
  | n + 1, g => (fresh (after n g)).2

def drawn (n : Nat) (g : σ) : List String := (List.range n).map fun k => (fresh (after k g)).1

theorem drawn_succ (n : Nat) (g : σ) : drawn (n + 1) g = drawn n g ++ [(fresh (after n g)).1] := by
  simp [drawn, List.range_succ]

end NameSource

theorem Grown.Frame.declaring_congr (f : Frame) (xs : List Temp) {x y : Temp}
    (h : x.declaration = y.declaration) : f.declaring (xs ++ [x]) = f.declaring (xs ++ [y]) := by
  simp only [Frame.declaring, List.map_append, List.map_singleton, h]

namespace Lower

open NameSource

variable {σ : Type} [NameSource σ] {w₀ w : Work σ} {xs : List Temp} {E R : Entries}
    {t e : Grown} {f g : Frame}
  {K L M : Context}

/-- Since `w₀` just these temporaries were named. -/
structure Since (w₀ : Work σ) (xs : List Temp) (w : Work σ) : Prop where
  names : w.names = after xs.length w₀.names
  drawn : xs.map Temp.name = NameSource.drawn xs.length w₀.names
  features : w.arena.features = w₀.arena.features
  changes : w.changes = w₀.changes

namespace Since

theorem start (w : Work σ) : Since w [] w := ⟨rfl, rfl, rfl, rfl⟩

theorem arena {a : Arena} (h : Since w₀ xs w) (ha : a.features = w.arena.features) :
    Since w₀ xs { w with arena := a } :=
  ⟨h.names, h.drawn, ha.trans h.features, h.changes⟩

theorem snoc {x : Temp} (h : Since w₀ xs w) (hx : x.name = (fresh w.names).1) :
    Since w₀ (xs ++ [x]) { w with names := (fresh w.names).2 } where
  names := by rw [List.length_append, List.length_singleton, after, ← h.names]
  drawn := by
    rw [List.length_append, List.length_singleton, drawn_succ, ← h.drawn, ← h.names,
      List.map_append, List.map_singleton, hx]
  features := h.features
  changes := h.changes

theorem congr {ys : List Temp} (h : Since w₀ xs w) (e : ys.map Temp.name = xs.map Temp.name) :
    Since w₀ ys w := by
  have hl : ys.length = xs.length := by simpa using congrArg List.length e
  exact ⟨by rw [hl, h.names], by rw [e, h.drawn, hl], h.features, h.changes⟩

end Since

/-! ## Steps that change nothing but the store -/

theorem does_leaves {x : Arena → Edited Arena} {Q : Unit → Work σ → Prop} (hs : Since w₀ xs w)
    (hx : (x w.arena).Leaves w.arena E) (hQ : ∀ w', Since w₀ xs w' → w'.arena.Holds E → Q () w') :
    Does (edit x) w Q := by
  obtain ⟨a, ha, hold, hf⟩ := hx
  exact does_edit ha (hQ _ (hs.arena hf) hold)

theorem does_builds {x : Arena → Edited (NodeId × Arena)} {Q : NodeId → Work σ → Prop}
    (hs : Since w₀ xs w) (hx : (x w.arena).Builds w.arena t R)
    (hQ : ∀ w', Since w₀ xs w' → w'.arena.Holds (t.entries none + R) → Q t.id w') :
    Does (build x) w Q := by
  obtain ⟨a, ha, hold, hf⟩ := hx
  exact does_build ha (hQ _ (hs.arena hf) hold)

/-! ## Declaring and keeping -/

theorem declareTemp_does {p : Place} {v : NodeId} {s : Label} {Q : String → Work σ → Prop}
    (hs : Since w₀ xs w) (hp : p.statement = (plug L t).id)
    (h : w.arena.Holds ((plug (L ++ f.declaring xs :: M) t).entries none + R))
    (hv : Labels ((plug (L ++ f.declaring xs :: M) t).entries none + R) v s)
    (hQ : ∀ (x : Temp) (w' : Work σ), x.src = s → Since w₀ (xs ++ [x]) w' →
      w'.arena.Holds ((plug (L ++ f.declaring (xs ++ [x]) :: M) t).entries none + R) →
      Q x.name w') :
    Does (declareTemp p (some v)) w Q := by
  refine .bind (does_freshName (.bind ?_))
  obtain ⟨i, j, hb⟩ := newLet_builds (fresh w.names).1 h hv
  let x : Temp := ⟨(fresh w.names).1, s, j, i, 0, 0, 0⟩
  refine does_builds (t := x.declaration) (hs.snoc (x := x) rfl) hb ?_
  intro w₁ hs₁ h₁
  refine .bind
    (does_leaves hs₁ (E := (plug (L ++ f.declaring (xs ++ [x]) :: M) t).entries none + R) ?_ ?_)
  · rw [plug_append, add_left_comm] at h₁
    rw [plug_append, hp, Frame.declaring, List.map_append, ← List.append_assoc]
    exact addBefore_leaves h₁
  · intro w₂ hs₂ h₂
    exact does_pure (hQ x w₂ rfl hs₂ h₂)

/-- What `keepInTemp` does once the temporary is declared. -/
def keepAs (name : String) (e : Ref) : Lower σ Ref := do
  let standIn ← build (·.newEmpty)
  edit (·.replaceWith e standIn)
  let assign ← build (·.newAssign name e e)
  edit (·.replaceWith standIn assign)
  build fun a => a.cloneNode (a.firstChild assign)

theorem keepInTemp_eq (p : Place) (e : Ref) :
    (keepInTemp p e : Lower σ Ref) = declareTemp p e >>= fun name => keepAs name e := rfl

theorem keepAs_does {x₀ : Temp} {Q : Ref → Work σ → Prop} (hs : Since w₀ (xs ++ [x₀]) w)
    (hx : x₀.src = e.label) (h : w.arena.Holds ((plug (g :: K) e).entries none + R))
    (hQ : ∀ (x : Temp) (i : NodeId) (w' : Work σ),
      x.src = e.label → x.declaration = x₀.declaration → Since w₀ (xs ++ [x]) w' →
      w'.arena.Holds ((plug (g :: K) (x.keep e)).entries none +
        (x.use.entries none + ((placeholder i).entries none + R))) →
      Q (some x.used) w') :
    Does (keepAs x₀.name (some e.id)) w Q := by
  refine .bind (does_builds hs (newEmpty_builds h) ?_)
  intro w₁ hs₁ h₁
  rw [add_left_comm] at h₁
  refine .bind (does_leaves hs₁ (replaceWith_leaves h₁) ?_)
  intro w₂ hs₂ h₂
  rw [add_left_comm] at h₂
  obtain ⟨i, j, hb⟩ := newAssign_builds x₀.name h₂ (labels_root none e).add_right
  refine .bind (does_builds hs₂ hb ?_)
  intro w₃ hs₃ h₃
  rw [add_left_comm] at h₃
  refine .bind (does_leaves hs₃ (replaceWith_leaves h₃) ?_)
  intro w₄ hs₄ h₄
  let target : Label := .made .name (some x₀.name) e.label
  have hfirst : w₄.arena.firstChild (some i) = some j := firstChild_hole h₄
  have htarget :=
    h₄.mem_of_node? (Holds.node?_hole (K := ⟨i, .made .assign none e.label, [], [e]⟩ :: g :: K)
    (t := .node j target []) h₄)
  obtain ⟨E', hE'⟩ := Multiset.exists_cons_of_mem htarget
  obtain ⟨a, ha, hold, hf⟩ := cloneNode_adds (h₄.of_eq hE')
  rw [← hE', add_left_comm] at hold
  let x : Temp := ⟨x₀.name, e.label, x₀.binding, x₀.declared, j, i, w₄.arena.size⟩
  refine does_build (v := some x.used) (a := a) ?_ (hQ x w.arena.size _ rfl ?_ ?_ ?_)
  · rw [id_node, hfirst]
    exact ha
  · simp only [Temp.declaration, x, hx]
  · exact (hs₄.arena hf).congr (by simp [x])
  · exact hold

theorem keepInTemp_apart {p : Place} {Q : Ref → Work σ → Prop} (hs : Since w₀ xs w)
    (hp : p.statement = (plug L t).id)
    (h : w.arena.Holds
      ((plug (L ++ f.declaring xs :: M) t).entries none + ((plug (g :: K) e).entries none + R)))
    (hQ : ∀ (x : Temp) (i : NodeId) (w' : Work σ), x.src = e.label → Since w₀ (xs ++ [x]) w' →
      w'.arena.Holds ((plug (L ++ f.declaring (xs ++ [x]) :: M) t).entries none +
        ((plug (g :: K) (x.keep e)).entries none +
          (x.use.entries none + ((placeholder i).entries none + R)))) →
      Q (some x.used) w') :
    Does (keepInTemp p (some e.id)) w Q := by
  rw [keepInTemp_eq]
  refine .bind (declareTemp_does hs hp h (labels_hole _ e).add_right.add_left ?_)
  intro x₀ w₁ hx₀ hs₁ h₁
  rw [add_left_comm] at h₁
  refine keepAs_does hs₁ hx₀ h₁ ?_
  intro x i w₂ hx hd hs₂ h₂
  refine hQ x i w₂ hx hs₂ (h₂.of_eq ?_)
  rw [f.declaring_congr xs hd]
  abel

theorem keepInTemp_within {p : Place} {Q : Ref → Work σ → Prop} (hs : Since w₀ xs w)
    (hp : p.statement = (plug (g :: L) e).id)
    (h : w.arena.Holds ((plug (g :: L ++ f.declaring xs :: M) e).entries none + R))
    (hQ : ∀ (x : Temp) (i : NodeId) (w' : Work σ), x.src = e.label → Since w₀ (xs ++ [x]) w' →
      w'.arena.Holds ((plug (g :: L ++ f.declaring (xs ++ [x]) :: M) (x.keep e)).entries none +
        (x.use.entries none + ((placeholder i).entries none + R))) →
      Q (some x.used) w') :
    Does (keepInTemp p (some e.id)) w Q := by
  rw [keepInTemp_eq]
  refine .bind (declareTemp_does hs hp h (labels_hole _ e).add_right ?_)
  intro x₀ w₁ hx₀ hs₁ h₁
  refine keepAs_does hs₁ hx₀ h₁ ?_
  intro x i w₂ hx hd hs₂ h₂
  refine hQ x i w₂ hx hs₂ ?_
  rw [f.declaring_congr xs hd]
  exact h₂

end Lower

end ChainLowering
