import ChainLowering.Proofs.GuardSound
import ChainLowering.Proofs.Links
import ChainLowering.Proofs.Trees

/-!
# Where lowering faults

Once the segments of a chain are found lowering gives no error any more. It
faults where the chain is a statement itself, and where a segment begins with
nothing before its first link or calls an access to nothing.
-/

namespace ChainLowering

open Grown Arena

namespace Lower

variable {σ α β : Type} {w : Work σ}

/-- No error comes of `x`, and `Q` holds of its result and the work after it unless it faults. -/
def Accepts (x : Lower σ α) (w : Work σ) (Q : α → Work σ → Prop) : Prop :=
  match x.run w with
  | (.ok v, w') => Q v w'
  | (.error (.fault _), _) => True
  | (.error (.error _), _) => False

def Faults (x : Lower σ α) (w : Work σ) : Prop := Accepts x w fun _ _ => False

theorem run_bind_error {x : Lower σ α} {f : α → Lower σ β} {e : Halt LoweringError} {w' : Work σ}
    (h : x.run w = (.error e, w')) : (x >>= f).run w = (.error e, w') := by
  rw [ExceptT.run_bind]
  change StateT.bind x.run _ w = _
  simp only [StateT.bind, h]
  rfl

namespace Accepts

variable {x y : Lower σ α} {P Q : α → Work σ → Prop}

theorem of_does (h : Does x w Q) : Accepts x w Q := by
  obtain ⟨v, w', hx, hQ⟩ := h
  rw [Accepts, hx]
  exact hQ

theorem mono (h : Accepts x w P) (hPQ : ∀ v w', P v w' → Q v w') : Accepts x w Q := by
  rw [Accepts] at h ⊢
  split at h <;> first | exact hPQ _ _ h | exact h

theorem congr (e : x.run w = y.run w) (h : Accepts y w Q) : Accepts x w Q := by
  rwa [Accepts, e]

theorem bind {f : α → Lower σ β} {Q : β → Work σ → Prop}
    (h : Accepts x w fun v w' => Accepts (f v) w' Q) :
    Accepts (x >>= f) w Q := by
  rw [Accepts] at h
  split at h
  · next v w' hx => rwa [Accepts, run_bind hx]
  · next hx => rw [Accepts, run_bind_error hx]; trivial
  · exact h.elim

theorem no_error {e : LoweringError} {w' : Work σ} (h : Accepts x w Q) :
    x.run w ≠ (.error (.error e), w') := by
  intro hx
  rw [Accepts, hx] at h
  exact h

theorem result {v : α} {w' : Work σ} (h : Accepts x w Q) (hx : x.run w = (.ok v, w')) : Q v w' := by
  rwa [Accepts, hx] at h

end Accepts

theorem Faults.accepts {x : Lower σ α} {Q : α → Work σ → Prop} (h : Faults x w) : Accepts x w Q :=
  Accepts.mono h fun _ _ => False.elim

theorem faults_bind {x : Lower σ α} (f : α → Lower σ β) (h : Faults x w) : Faults (x >>= f) w :=
  Accepts.bind h.accepts

theorem accepts_edited {x : Edited α} {Q : α → Work σ → Prop} (h : ∀ v, x = .ok v → Q v w) :
    Accepts (edited x) w Q := by
  cases x with
  | error f => exact True.intro
  | ok v => exact h v rfl

theorem accepts_edit {f : Arena → Edited Arena} {Q : Unit → Work σ → Prop}
    (h : ∀ a, f w.arena = .ok a → Q () { w with arena := a }) : Accepts (edit f) w Q := by
  refine .bind (.of_does (does_arena (.bind (accepts_edited fun a ha => ?_))))
  exact .of_does (does_modify (h a ha))

theorem accepts_build {f : Arena → Edited (α × Arena)} {Q : α → Work σ → Prop}
    (h : ∀ v a, f w.arena = .ok (v, a) → Q v { w with arena := a }) : Accepts (build f) w Q := by
  refine .bind (.of_does (does_arena (.bind (accepts_edited fun x hx => ?_))))
  exact .of_does (.bind (does_modify (does_pure (h x.1 x.2 hx))))

/-! ## Edits that do not go through -/

theorem replaceWith_none {a b : Arena} {new : Ref} : a.replaceWith none new ≠ .ok b := by
  rw [replaceWith]
  split_ifs with hnew hold
  · rintro ⟨⟩
  · exact absurd hold (by simp [Arena.parent, node?, Arena.children])
  · rintro ⟨⟩

theorem addBefore_detached {a b : Arena} {new old : Ref} (h : a.parent old = none) :
    a.addBefore new old ≠ .ok b := by
  rw [addBefore]
  split_ifs with hnew hold
  · rintro ⟨⟩
  · exact absurd hold (by simp [h, node?, Arena.children])
  · rintro ⟨⟩

section
variable {a b : Arena} {i c : NodeId} {name : String} {src : Ref}

theorem parent_newLet (hc : c < a.size) (h : a.newLet name src = .ok (i, b)) :
    b.parent (some c) = a.parent (some c) := by
  rw [newLet, newName] at h
  cases hm : a.synthesize .name (some name) [] src with
  | error e => rw [hm] at h; cases h
  | ok x =>
    obtain ⟨j, m⟩ := x
    rw [hm] at h
    have hj : Founds a j m [] := synthesize_founds (by simp) hm
    have hi : Founds m i b [j] := synthesize_founds (by simp [hj.index, hj.size]) h
    have hne : c ≠ j := hj.index ▸ Nat.ne_of_lt hc
    rw [hi.adopts.parent, if_neg (by simpa using hne), hj.adopts.parent, if_neg (List.not_mem_nil)]

end

/-! ## Opening a place -/

section
variable {p : Place} {c last : NodeId}

theorem forM_links_does (ls : List (Ref × Kind)) {Q : Unit → Work σ → Prop}
    (hQ : ∀ b : Arena, SameLinks w.arena b → b.size = w.arena.size → Q () { w with arena := b }) :
    Does (ls.forM fun (r, k) => edit fun a => .ok ((a.setMarked r false).setKind r k)) w Q := by
  induction ls generalizing w with
  | nil => exact does_pure (hQ _ ⟨fun _ => rfl, fun _ => rfl⟩ rfl)
  | cons x ls ih =>
    obtain ⟨r, k⟩ := x
    rw [List.forM_eq_forM, List.forM_cons]
    refine .bind (does_edit rfl (ih fun b hb hsize => hQ b ?_ ?_))
    · have hmarked : SameLinks w.arena (w.arena.setMarked r false) :=
        sameLinks_modify _ _ _ (fun _ => rfl) fun _ => rfl
      have hkind : SameLinks (w.arena.setMarked r false)
          ((w.arena.setMarked r false).setKind r k) :=
        sameLinks_modify _ _ (fun n => { n with kind := k }) (fun _ => rfl) fun _ => rfl
      exact ⟨fun q => (hb.parent q).trans ((hkind.parent q).trans (hmarked.parent q)),
        fun q => (hb.children q).trans ((hkind.children q).trans (hmarked.children q))⟩
    · exact hsize.trans (by simp [setKind, setMarked])

theorem openGuard_accepts {ls : List (Ref × Kind)} (ha : Consistent w.arena) (hc : c < w.arena.size)
    (hchain : p.chain = some c) (hlinks : w.arena.segmentLinks (some last) = .ok ls) :
    Accepts (openGuard p (some last)) w fun _ w' =>
      c < w'.arena.size ∧ w'.arena.parent (some c) = none := by
  have hplain : Does (makePlain (some last)) w fun _ w' => SameLinks w.arena w'.arena ∧
      w'.arena.size = w.arena.size := by
    refine .bind (does_arena (.bind ?_))
    rw [hlinks]
    exact does_checked (forM_links_does ls fun b hb hsize => ⟨hb, hsize⟩)
  refine .bind (.of_does (hplain.mono fun _ w₁ h₁ => ?_))
  obtain ⟨hsame, hsize⟩ := h₁
  have h₁ := ha.sameLinks hsame
  refine .bind (accepts_build fun i m hm => ?_)
  have hi : Founds w₁.arena i m [] := synthesize_founds (by simp) hm
  refine .bind (accepts_edit fun b hb => .of_does (does_pure ?_))
  rw [hchain] at hb
  have hcm : c < m.size := by rw [hi.size, hsize]; exact Nat.lt_succ_of_lt hc
  have him : i < m.size := by rw [hi.size, hi.index]; exact Nat.lt_succ_self _
  obtain ⟨q, -, hparts, hjoins⟩ := replaceWith_joins (h₁.adopts hi.adopts) hcm him hb
  have hne : c ≠ i := by rw [hi.index, hsize]; exact Nat.ne_of_lt hc
  exact ⟨size_replaceWith hb ▸ hcm, by rw [hjoins.parent, if_neg hne, hparts.parent, if_pos rfl]⟩

end

/-! ## Temporaries that cannot be kept -/

section
variable [NameSource σ] {p : Place} {e : Ref}

theorem declareTemp_accepts : Accepts (declareTemp p e) w fun _ _ => True :=
  .bind (.of_does
    (does_freshName
      (.bind (accepts_build fun _ _ _ =>
        .bind (accepts_edit fun _ _ => .of_does (does_pure trivial))))))

theorem keepInTemp_none : Faults (keepInTemp p none) w := by
  rw [keepInTemp_eq]
  refine Accepts.bind (declareTemp_accepts.mono fun name w₁ _ => ?_)
  refine .bind (accepts_build fun i a _ => .bind (accepts_edit fun b hb => ?_))
  exact absurd hb replaceWith_none

theorem keepInTemp_detached (hs : p.statement < w.arena.size)
    (hp : w.arena.parent (some p.statement) = none) :
    Faults (keepInTemp p e) w := by
  rw [keepInTemp_eq]
  refine faults_bind _ ?_
  refine Accepts.bind
    (.of_does (does_freshName
      (.bind (accepts_build fun i a ha => .bind (accepts_edit fun b hb => ?_)))))
  exact absurd hb (addBefore_detached ((parent_newLet hs ha).trans hp))

theorem splitReceiver_none {start : Ref} : Faults (splitReceiver p start none) w :=
  Accepts.bind (.of_does (does_arena (faults_bind _ keepInTemp_none)))

theorem splitReceiver_detached {start receiver : Ref} (hs : p.statement < w.arena.size)
    (hp : w.arena.parent (some p.statement) = none) :
    Faults (splitReceiver p start receiver) w := by
  refine Accepts.bind (.of_does (does_arena ?_))
  dsimp only
  split_ifs <;> exact faults_bind _ (keepInTemp_detached hs hp)

theorem splitReceiver_empty {start receiver : Ref} (hreceiver : w.arena.isGet receiver = true)
    (hstart : w.arena.isCall start = true) (hempty : w.arena.firstChild receiver = none) :
    Faults (splitReceiver p start receiver) w := by
  refine Accepts.bind (.of_does (does_arena ?_))
  rw [hreceiver, hstart, hempty, Bool.and_self, if_pos rfl]
  exact faults_bind _ keepInTemp_none

theorem finishGuard_faults {start standIn : NodeId} {receiver : Ref}
    (h : Faults (splitReceiver p start receiver) w) :
    Faults (finishGuard p start receiver standIn) w := faults_bind _ h

variable {c start last : NodeId}

theorem guardSegment_faults {ls : List (Ref × Kind)} (ha : Consistent w.arena)
    (hc : c < w.arena.size) (hchain : p.chain = some c)
    (hreceiver : w.arena.isChain (w.arena.firstChild (some start)) = false)
    (hlast : w.arena.segmentEnd? (some start) = some last)
    (hlinks : w.arena.segmentLinks (some last) = .ok ls)
    (hsplit : ∀ w' : Work σ, c < w'.arena.size → w'.arena.parent (some c) = none →
      Faults (splitReceiver p (some start) (w.arena.firstChild (some start))) w') :
        Faults (guardSegment p start) w := by
  refine Accepts.congr (guardSegment_run hreceiver hlast)
    (.bind ((openGuard_accepts ha hc hchain hlinks).mono ?_))
  exact fun i w₁ h₁ => finishGuard_faults (hsplit w₁ h₁.1 h₁.2)

end

end Lower

end ChainLowering
