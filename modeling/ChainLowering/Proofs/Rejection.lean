import ChainLowering.Proofs.Faults
import ChainLowering.Proofs.Loops
import ChainLowering.Proofs.Rewriting

/-!
# Rejected chains

What is to be lowered is examined before anything is changed, and nothing
that is found later is an error. So a chain that is rejected leaves the work
as it was, and a pass that fails stops between two chains.
-/

namespace ChainLowering

open Grown Arena

namespace Grown

theorem exists_lowest {u : Grown} (hu : u.label.kind.isChain = true) :
    ∃ t ks, u = tower t ks ∧ Lowest t ∧ Linked ks := by
  obtain ⟨x, ks, rfl, hc, hx⟩ := exists_tower u
  cases hch : x.label.kind.isChain with
  | true => exact ⟨x, ks, rfl, ⟨hch, by simp [hx hch]⟩, hc⟩
  | false =>
    cases ks with
    | nil => rw [tower_nil, hch] at hu; cases hu
    | cons k ks =>
      exact ⟨.node k.id k.label (x :: k.args), ks, rfl, lowest_link (hc k List.mem_cons_self) hch,
        fun j hj => hc j (List.mem_cons_of_mem _ hj)⟩

end Grown

namespace Arena

variable {a : Arena} {r : Ref} {t : Grown} {ks : List Link} {K : Context} {R : Entries}

theorem Forest.consistent (h : Forest a) : Consistent a where
  child {p r} hr := by
    rw [children] at hr
    split at hr
    · next n hn =>
      obtain ⟨j, m, rfl, hm, hp⟩ := h.child hn hr
      exact ⟨j, rfl, parent_eq_some.mpr ⟨m, hm, hp⟩⟩
    · cases hr
  parent hc := by
    obtain ⟨m, hm, hp⟩ := parent_eq_some.mp hc
    exact lists_iff_mem.mp (h.parent hm hp)
  nodup p := by
    rw [children]
    split
    · next n hn => exact h.nodup hn
    · exact List.nodup_nil

theorem spine_tower (ht : Lowest t) (hc : Linked ks)
    (h : a.Holds ((plug K (tower t ks)).entries none + R)) :
    a.spine (some (tower t ks).id) = (t.id :: ks.map Link.id).reverse := by
  have hlen := length_lt_size h
  have ht' : a.Holds ((plug (ks.map Link.frame ++ K) t).entries none + R) := by
    rw [← plug_tower]
    exact h
  obtain ⟨n, hn⟩ : ∃ n, a.size + 1 - ks.length = n + 1 := ⟨a.size - ks.length, by omega⟩
  have hbelow : a.spineTo n (a.firstChild (some t.id)) = [] := by
    have := isChain_below ht ht'
    cases hx : a.firstChild (some t.id) with
    | none => cases n <;> rfl
    | some x =>
      rw [hx] at this
      cases n <;> simp [spineTo, this]
  rw [spine, spineTo_tower hc _ hlen h, hn, spineTo, if_pos ((isChain_hole ht').trans ht.isChain),
    hbelow, List.reverse_cons]

theorem getLast?_spine (ht : Lowest t) (hc : Linked ks)
    (h : a.Holds ((plug K (tower t ks)).entries none + R)) :
    (a.spine (some (tower t ks).id)).getLast? = some t.id := by
  rw [spine_tower ht hc h, List.getLast?_reverse, List.head?_cons]

theorem isChain_of_end (h : a.isChainEnd r = true) : a.isChain r = true := by
  rw [isChainEnd, Bool.and_eq_true] at h
  exact h.1

theorem Forest.exists_chain (h : Forest a) (hr : a.isChain r = true) :
    ∃ t ks K us, r = some (tower t ks).id ∧ Lowest t ∧ Linked ks ∧
    a.Holds ((plug K (tower t ks)).entries none + entriesAll none us) := by
  obtain ⟨i, rfl, hi⟩ : ∃ i, r = some i ∧ i < a.size := by
    cases r with
    | none => cases hr
    | some i =>
      refine ⟨i, rfl, isSome_node?.mp ?_⟩
      cases hn : a.node? (some i) with
      | none => simp [isChain, kind?, hn] at hr
      | some n => rfl
  obtain ⟨ts, hts⟩ := h.exists_trees
  obtain ⟨K, u, us, vs, -, rfl, hold⟩ := hts.exists_hole hi
  obtain ⟨t, ks, rfl, ht, hc⟩ := exists_lowest ((isChain_hole hold).symm.trans hr)
  exact ⟨t, ks, K, _, rfl, ht, hc, hold⟩

/-- Why a chain that should end at a slot is rejected. -/
inductive Rejects (a : Arena) (r : Ref) : LoweringError → Prop
  | lowered (hr : a.isChain r = false) (hp : (a.isGet r || a.isCall r) = true) :
      Rejects a r ⟨.alreadyLowered, .of a r⟩
  | noLink (hr : a.isChain r = false) (hp : (a.isGet r || a.isCall r) = false) :
    Rejects a r ⟨.notEndOfFullChain, .of a r⟩
  | continued (hr : a.isChain r = true) (hp : a.isChain (a.parent r) = true)
      (hfirst : a.firstChild (a.parent r) = r) :
    Rejects a r ⟨.notEndOfFullChain, .of a r⟩
  | loose (hend : a.isChainEnd r = true) (hp : a.parent r = none) :
      Rejects a r ⟨.missingParent, .of a r⟩
  | noStatement (hend : a.isChainEnd r = true) (hp : (a.parent r).isSome = true)
    (hs : ∀ i ∈ a.ancestors r, a.isStatement (some i) = false) :
    Rejects a r ⟨.missingEnclosingStatement, .of a r⟩
  | noScript {s : NodeId} (hend : a.isChainEnd r = true) (hp : (a.parent r).isSome = true)
    (hs : a.enclosingStatement? r = some s)
    (hscript : ∀ i ∈ a.ancestors (some s), a.isKind (some i) .script = false) :
    Rejects a r ⟨.missingEnclosingScript, .of a r⟩
  /-- The lowest link begins no segment. -/
  | unmarked {s script i : NodeId} (hend : a.isChainEnd r = true) (hp : (a.parent r).isSome = true)
    (hs : a.enclosingStatement? r = some s) (hscript : a.enclosingScript? (some s) = some script)
    (hi : (a.spine r).getLast? = some i) (hm : a.isMarked (some i) = false) :
    Rejects a r ⟨.inconsistentSegment, .of a (a.firstChild (some i))⟩

theorem Rejects.defect_ne {e : LoweringError} (h : Rejects a r e) :
    e.defect ≠ .receiverStillOptional := by
  cases h <;> exact fun e => nomatch e

theorem isChainEnd_or_rejects (a : Arena) (r : Ref) :
    a.isChainEnd r = true ∨ ∃ e, Rejects a r e := by
  cases hr : a.isChain r with
  | false =>
    cases hp : a.isGet r || a.isCall r with
    | true => exact .inr ⟨_, .lowered hr hp⟩
    | false => exact .inr ⟨_, .noLink hr hp⟩
  | true =>
    cases hp : a.isChain (a.parent r) && a.isFirstChild r (a.parent r) with
    | false => exact .inl (by rw [isChainEnd, hr, hp]; rfl)
    | true =>
      rw [isFirstChild, Bool.and_eq_true, Bool.and_eq_true, beq_iff_eq] at hp
      exact .inr ⟨_, .continued hr hp.1 hp.2.2⟩

/-- Every link, access and call has a first child. -/
def HasReceivers (a : Arena) : Prop :=
  ∀ i : NodeId, (a.isChain (some i) || a.isGet (some i) || a.isCall (some i)) = true →
    (a.firstChild (some i)).isSome = true

/-- What stands at a slot is not rejected: a chain below a script, whose lowest link begins a
segment. -/
structure Ready (a : Arena) (r : Ref) (s script : NodeId) : Prop where
  isEnd : a.isChainEnd r = true
  parent : (a.parent r).isSome = true
  statement : a.enclosingStatement? r = some s
  script : a.enclosingScript? (some s) = some script
  marked : ∃ i, (a.spine r).getLast? = some i ∧ a.isMarked (some i) = true

theorem rejects_or_ready (hf : Forest a) (r : Ref) :
    (∃ e, Rejects a r e) ∨ ∃ s script, Ready a r s script := by
  rcases isChainEnd_or_rejects a r with hend | h
  · cases hp : a.parent r with
    | none => exact .inl ⟨_, .loose hend hp⟩
    | some q =>
      have hsome : (a.parent r).isSome = true := by rw [hp]; rfl
      cases hs : a.enclosingStatement? r with
      | none =>
        exact .inl ⟨_, .noStatement hend hsome fun i hi => by simpa using List.find?_eq_none.mp hs i hi⟩
      | some s =>
        cases hscript : a.enclosingScript? (some s) with
        | none =>
          exact .inl ⟨_, .noScript hend hsome hs fun i hi => by simpa using List.find?_eq_none.mp hscript i hi⟩
        | some script =>
          obtain ⟨t, ks, K, us, rfl, ht, hc, h⟩ := hf.exists_chain (isChain_of_end hend)
          have hi := getLast?_spine ht hc h
          cases hm : a.isMarked (some t.id) with
          | false => exact .inl ⟨_, .unmarked hend hsome hs hscript hi hm⟩
          | true => exact .inr ⟨s, script, hend, hsome, hs, hscript, _, hi, hm⟩
  · exact .inl h

theorem Ready.exists_tower {s script : NodeId} (h : Ready a r s script) (hf : Forest a) :
    ∃ t ks K us, r = some (tower t ks).id ∧ Lowest t ∧ t.label.chainStart = true ∧ Linked ks ∧
      endsChain K = true ∧ a.Holds ((plug K (tower t ks)).entries none + entriesAll none us) := by
  obtain ⟨t, ks, K, us, rfl, ht, hc, hold⟩ := hf.exists_chain (isChain_of_end h.isEnd)
  obtain ⟨i, hi, hm⟩ := h.marked
  obtain rfl := Option.some.inj ((getLast?_spine ht hc hold).symm.trans hi)
  have ht' : a.Holds ((plug (ks.map Link.frame ++ K) t).entries none + entriesAll none us) := by
    rw [← plug_tower]
    exact hold
  have hend := h.isEnd
  rw [isChainEnd_hole hold, Bool.and_eq_true] at hend
  exact ⟨t, ks, K, us, rfl, ht, (isMarked_hole ht').symm.trans hm, hc, hend.2, hold⟩

end Arena

namespace Lower

variable {σ α β : Type} {w : Work σ} {r : Ref} {e : LoweringError}

/-- An error comes of `x`, and the work is as it was. -/
def Refuses (x : Lower σ α) (w : Work σ) (e : LoweringError) : Prop :=
  x.run w = (.error (.error e), w)

theorem Refuses.bind {x : Lower σ α} (f : α → Lower σ β) (h : Refuses x w e) :
    Refuses (x >>= f) w e := run_bind_error h

theorem refuses_after {x : Lower σ α} {f : α → Lower σ β} {v : α} (hx : x.run w = (.ok v, w))
    (h : Refuses (f v) w e) :
    Refuses (x >>= f) w e := by
  rw [Refuses, run_bind hx]
  exact h

theorem refuses_checkChainEnd (h : w.arena.checkChainEnd r = .error e) :
    Refuses (locate r) w e := by
  refine refuses_after (v := w.arena) rfl (.bind _ ?_)
  rw [h]
  rfl

/-- Every defect but a missing mark is found when the place of a chain is looked for. -/
theorem refuses_locate (h : Rejects w.arena r e) (hm : e.defect ≠ .inconsistentSegment) :
    Refuses (locate r) w e := by
  have hchecked : w.arena.isChainEnd r = true →
      (checked (w.arena.checkChainEnd r) : Lower σ Unit).run w = (.ok (), w) := by
    intro hend
    rw [checkChainEnd_ok hend]
    rfl
  -- each check is come to when those of the cases before it have passed
  cases h with
  | lowered hr hp => exact refuses_checkChainEnd (by simp [checkChainEnd, hr, hp])
  | noLink hr hp => exact refuses_checkChainEnd (by simp [checkChainEnd, hr, hp])
  | continued hr hp hfirst =>
    have hsome : r.isSome = true := by
      cases r with
      | none => cases hr
      | some i => rfl
    have hend : w.arena.isChainEnd r = false := by
      simp [isChainEnd, isFirstChild, hr, hp, hfirst, hsome]
    exact refuses_checkChainEnd (by simp [checkChainEnd, hr, hend])
  | loose hend hp =>
    refine refuses_after (v := w.arena) rfl (refuses_after (hchecked hend) ?_)
    simp only [hp, Option.isNone_none, ite_true]
    exact .bind _ rfl
  | noStatement hend hp hs =>
    have hnone : w.arena.enclosingStatement? r = none := List.find?_eq_none.mpr fun i hi => by
      simpa using hs i hi
    refine refuses_after (v := w.arena) rfl (refuses_after (hchecked hend) ?_)
    simp only [Option.isNone_eq_false_iff.mpr hp, hnone, Bool.false_eq_true, ite_false]
    rfl
  | noScript hend hp hs hscript =>
    have hnone : w.arena.enclosingScript? _ = none := List.find?_eq_none.mpr fun i hi => by
      simpa using hscript i hi
    refine refuses_after (v := w.arena) rfl (refuses_after (hchecked hend) ?_)
    simp only [Option.isNone_eq_false_iff.mpr hp, hs, hnone, Bool.false_eq_true, ite_false]
    rfl
  | unmarked => exact absurd rfl hm

/-! ## Lowering a chain that may be rejected -/

section
variable [NameSource σ] {p : Place} {t : Grown} {ks us zs : List Link} {K : Context} {R : Entries}

theorem refuses_guardChain (hf : Forest w.arena) (h : Rejects w.arena r e) :
    Refuses (guardChain r) w e := by
  by_cases hd : e.defect = .inconsistentSegment
  · cases h with
    | unmarked hend hp hs hscript hi hm =>
      obtain ⟨t, ks, K, us, rfl, ht, hc, hold⟩ := hf.exists_chain (isChain_of_end hend)
      obtain rfl := Option.some.inj ((getLast?_spine ht hc hold).symm.trans hi)
      have ht' : w.arena.Holds ((plug (ks.map Link.frame ++ K) t).entries none +
          entriesAll none us) := by
        rw [← plug_tower]
        exact hold
      have hstart : t.label.chainStart = false := (isMarked_hole ht').symm.trans hm
      refine refuses_after (locate_run hend hp hs hscript)
        (refuses_after (v := w.arena) rfl (.bind _ ?_))
      rw [segmentStarts_tower ht hc hold, if_neg (by simp [hstart])]
      rfl
    | _ => cases hd
  · exact .bind _ (refuses_locate h hd)

theorem guardSegment_lowest (ht : Lowest t) (hm : t.label.chainStart = true) (hc : Linked ks)
    (hend : endsChain K = true) (ha : Consistent w.arena)
    (h : w.arena.Holds ((plug K (tower t ks)).entries none + R))
    (hchain : p.chain = some (tower t ks).id)
    (hsplit : ∀ w' : Work σ, (tower t ks).id < w'.arena.size →
      w'.arena.parent (some (tower t ks).id) = none →
      Faults (splitReceiver p (some t.id) (w.arena.firstChild (some t.id))) w') :
        Faults (guardSegment p t.id) w := by
  obtain ⟨us, zs, rfl, hu, hz⟩ := exists_upper_segments ks
  have hcu : Linked us := fun k hk => hc k (List.mem_append_left _ hk)
  have hlt : (tower t (us ++ zs)).id < w.arena.size :=
    (Array.getElem?_eq_some_iff.mp h.node?_hole).1
  have h' : w.arena.Holds ((plug (zs.map Link.frame ++ K) (tower t us)).entries none + R) := by
    rw [← plug_tower, ← tower_append]
    exact h
  have ht' : w.arena.Holds ((plug (us.map Link.frame ++ (zs.map Link.frame ++ K)) t).entries
      none + R) := by
    rw [← plug_tower]
    exact h'
  have hlast :=
    segmentEndTo_tower ht.isChain hcu hu (endsSegment_links hz hend) _ (length_lt_size h') h'
  exact guardSegment_faults ha hlt hchain (isChain_below ht ht')
    hlast (segmentLinks_tower ht.isChain hm hcu hu h') hsplit

theorem guardSegment_empty {x : Grown} {s : Link} {g : Frame} {L : Context}
    (hget : x.label.kind.isGet = true) (hnil : x.children = []) (hcall : s.label.plain.kind = .call)
    (hm : s.label.chainStart = true) (hc : Linked (s :: ks)) (hend : endsChain (g :: L) = true)
    (h : w.arena.Holds ((plug (g :: L) (tower x (s :: ks))).entries none + R))
    (hchain : p.chain = some (tower x (s :: ks)).id) : Faults (guardSegment p s.id) w := by
  obtain ⟨us, zs, rfl, hu, hz⟩ := exists_upper_segments ks
  have hcu : Linked (s :: us) :=
    fun k hk => hc k (by simp only [List.mem_cons, List.mem_append] at hk ⊢; tauto)
  have h' : w.arena.Holds ((plug (zs.map Link.frame ++ g :: L) (tower x (s :: us))).entries
      none + R) := by
    rw [← plug_tower, ← tower_append]
    exact h
  have hx : w.arena.Holds
      ((plug (s.frame :: (us.map Link.frame ++ (zs.map Link.frame ++ g :: L))) x).entries
        none + R) := by
    rw [plug_tower] at h'
    exact h'
  have hfirst : w.arena.firstChild (some s.id) = some x.id := firstChild_owner hx rfl
  have hreceiver : w.arena.isChain (w.arena.firstChild (some s.id)) = false := by
    rw [hfirst]
    exact (isChain_hole hx).trans (not_isChain_of_isGet hget)
  refine Accepts.congr
    (guardSegment_run hreceiver (segmentEnd?_tower hcu hu (endsSegment_links hz hend) h'))
      (.bind (.of_does ?_))
  refine openGuard_does (Since.start w) hchain hm hcu hu h ?_
  intro i w₁ _ h₁
  rw [add_left_comm] at h₁
  rw [hfirst]
  refine finishGuard_faults (splitReceiver_empty ((isGet_hole h₁).trans hget) ?_ ?_)
  · have := kind?_owner h₁
    simp only [Link.frame, Link.plain] at this
    simp [isCall, isKind, this, hcall]
  · rw [firstChild_hole h₁, hnil]
    rfl

variable {s script : NodeId}

theorem guardChain_faults (hr : Ready w.arena (some (tower t ks).id) s script) (ht : Lowest t)
    (hm : t.label.chainStart = true) (hc : Linked ks)
    (h : w.arena.Holds ((plug K (tower t ks)).entries none + R))
    (hguard : Faults
      (guardSegment ⟨some (tower t ks).id, w.arena.parent (some (tower t ks).id), s, script⟩ t.id)
        w) :
    Faults (guardChain (some (tower t ks).id)) w := by
  refine .bind
    (.of_does ⟨_, _, locate_run hr.isEnd hr.parent hr.statement hr.script,
      .bind (.of_does (does_arena (.bind ?_)))⟩)
  rw [segmentStarts_tower ht hc h, if_pos hm]
  exact .of_does (does_checked (faults_bind _ hguard))

/-- A chain that is a statement itself loses its place before the first temporary is declared. -/
theorem guardChain_own (hf : Forest w.arena) (hr : Ready w.arena (some s) s script) :
    Faults (guardChain (some s)) w := by
  obtain ⟨t, ks, K, us, hs, ht, hm, hc, hK, h⟩ := hr.exists_tower hf
  obtain rfl := Option.some.inj hs
  refine guardChain_faults hr ht hm hc h (guardSegment_lowest ht hm hc hK hf.consistent h rfl ?_)
  exact fun w' hlt hdetached => splitReceiver_detached hlt hdetached

/-- A chain inside a statement is lowered in its forest, unless its lowest link has no receiver or
is to call an access to nothing, where lowering faults. -/
theorem guardChain_inside (hf : Forest w.arena) (hr : Ready w.arena r s script) (hne : r ≠ some s) :
    (Does (guardChain r) w fun _ w' => Forest w'.arena) ∨ ¬ w.arena.HasReceivers ∧
      Faults (guardChain r) w := by
  obtain ⟨t, ks, K, us, rfl, ht, hm, hc, hK, h⟩ := hr.exists_tower hf
  have ht' : w.arena.Holds ((plug (ks.map Link.frame ++ K) t).entries none +
      entriesAll none us) := by
    rw [← plug_tower]
    exact h
  -- a lowest link without children has no receiver that could be split off
  obtain ⟨j, l, _ | ⟨x, args⟩⟩ := t
  · have hfirst : w.arena.firstChild (some j) = none := firstChild_hole ht'
    refine .inr ⟨fun hall => ?_, guardChain_faults hr ht hm hc h ?_⟩
    · have hchain : w.arena.isChain (some j) = true := (isChain_hole ht').trans ht.isChain
      have := hall j (by rw [hchain]; rfl)
      rw [hfirst] at this
      cases this
    · refine guardSegment_lowest ht hm hc hK hf.consistent h rfl fun w' _ _ => ?_
      rw [id_node, hfirst]
      exact splitReceiver_none
  · obtain ⟨L, f, M, rfl, hL, hown, rfl⟩ := exists_of_enclosingStatement? h hr.statement
    cases L with
    | nil => exact absurd rfl hne
    | cons g L =>
      let k : Link := ⟨j, l, args⟩
      have hx : x.label.kind.isChain = false := ht.below x rfl
      have hc' : Linked (k :: ks) := List.forall_mem_cons.mpr ⟨ht.isChain, hc⟩
      by_cases hempty : x.label.kind.isGet = true ∧ k.label.plain.kind = .call ∧ x.children = []
      · obtain ⟨hget, hcall, hnil⟩ := hempty
        refine .inr ⟨fun hall => ?_,
          guardChain_faults hr ht hm hc h
            (guardSegment_empty (s := k) hget hnil hcall hm hc' hK h rfl)⟩
        have hx' : w.arena.Holds
            ((plug (k.frame :: (ks.map Link.frame ++ (g :: L ++ f :: M))) x).entries none + _) :=
            ht'
        have := hall x.id (by rw [isGet_hole hx', hget, Bool.or_true, Bool.true_or])
        rw [firstChild_hole hx', hnil] at this
        cases this
      · have hget (hg : x.label.kind.isGet = true) (hcall : k.label.plain.kind = .call) :
            x.children ≠ [] :=
          fun hnil => hempty ⟨hg, hcall, hnil⟩
        have hhead : ∀ k' ∈ (k :: ks).head?, x.label.kind.isGet = true →
            k'.label.plain.kind = .call → x.children ≠ [] := by
          intro k' hk'
          obtain rfl := Option.some.inj hk'
          exact hget
        have hflagged : Flagged (k :: ks) := by
          intro k' hk'
          obtain rfl := Option.some.inj hk'
          exact hm
        have hdoes : Does (guardChain (some (tower x (k :: ks)).id))
            w (Guarded w L g f M (entriesAll none us) x (k :: ks) script) :=
          guardChain_tower hx hhead (List.cons_ne_nil _ _) hc' hflagged hK hL hown h hr.script
        refine .inl (hdoes.mono ?_)
        rintro guard w' ⟨⟨glue, u, dot, src, -, -, ⟨ps, h'⟩, -⟩, -, -⟩
        rw [← entriesAll_append, ← entriesAll_cons] at h'
        exact forest_of_trees h'

theorem guardChain_accepts (hf : Forest w.arena) (hr : Ready w.arena r s script) :
    Accepts (guardChain r) w fun _ w' => Forest w'.arena := by
  by_cases hs : r = some s
  · subst hs
    exact (guardChain_own hf hr).accepts
  · rcases guardChain_inside hf hr hs with h | ⟨-, h⟩
    · exact .of_does h
    · exact h.accepts

theorem rejects_or_accepts (hf : Forest w.arena) (r : Ref) :
    (∃ e, Rejects w.arena r e) ∨ Accepts (guardChain r) w fun _ w' => Forest w'.arena :=
  (rejects_or_ready hf r).imp_right fun ⟨_, _, h⟩ => guardChain_accepts hf h

/-- A chain is rejected just when an error comes of it, and then nothing has changed. -/
theorem guardChain_error_iff (hf : Forest w.arena) {w' : Work σ} :
    (guardChain r).run w = (.error (.error e), w') ↔ Rejects w.arena r e ∧ w' = w := by
  constructor
  · intro h
    rcases rejects_or_accepts hf r with ⟨d, hd⟩ | hok
    · have := h.symm.trans (refuses_guardChain hf hd)
      obtain ⟨he, rfl⟩ := Prod.mk.inj this
      obtain rfl := Halt.error.inj (Except.error.inj he)
      exact ⟨hd, rfl⟩
    · exact absurd h hok.no_error
  · rintro ⟨h, rfl⟩
    exact refuses_guardChain hf h

/-- Where every link, access and call has its receiver, lowering faults just on the chains that are
not rejected and are statements themselves. -/
theorem guardChain_faults_iff (hf : Forest w.arena) (hreceivers : w.arena.HasReceivers) :
    Faults (guardChain r) w ↔ ∃ s script, r = some s ∧ Ready w.arena r s script := by
  constructor
  · intro h
    rcases rejects_or_ready hf r with ⟨e, he⟩ | ⟨s, script, hr⟩
    · exact absurd (refuses_guardChain hf he) h.no_error
    · by_cases hs : r = some s
      · exact ⟨s, script, hs, hr⟩
      · obtain ⟨v, w', hrun, -⟩ :=
          (guardChain_inside hf hr hs).resolve_right fun h => h.1 hreceivers
        exact (h.result hrun).elim
  · rintro ⟨s, script, rfl, hr⟩
    exact guardChain_own hf hr

theorem forest_guardChain (hf : Forest w.arena) {v : NodeId} {w' : Work σ}
    (h : (guardChain r).run w = (.ok v, w')) :
    Forest w'.arena := by
  rcases rejects_or_accepts hf r with ⟨d, hd⟩ | hok
  · rw [refuses_guardChain hf hd] at h
    cases h
  · exact hok.result h

end

end Lower

end ChainLowering
