import FlowEngine.Proofs.Transaction.Accounts

/-!
# The ledger of snapshots

What the log of a session says about snapshots: which were taken, and which were given
back. A snapshot that was taken and not given back is in the hand of the task that took
it, and nothing is given back twice.
-/
namespace FlowEngine

def takings (log : List Occurrence) : List (Nat × String) :=
  log.filterMap fun
    | .poll ⟨_, .beginTransaction ctx, some (.ok handle), _, _⟩ => some (ctx.run, handle)
    | _ => none

def givings (log : List Occurrence) : List String :=
  log.filterMap fun
    | .poll ⟨_, .discardSnapshot handle, some _, _, _⟩ => some handle
    | .poll ⟨_, .restoreSnapshot handle, some _, _, _⟩ => some handle
    | _ => none

def discardings (log : List Occurrence) : List String :=
  log.filterMap fun
    | .poll ⟨_, .discardSnapshot handle, some (.ok ()), _, _⟩ => some handle
    | _ => none

def restorings (log : List Occurrence) : List String :=
  log.filterMap fun
    | .poll ⟨_, .restoreSnapshot handle, some (.ok ()), _, _⟩ => some handle
    | _ => none

section

variable (log more : List Occurrence)

theorem takings_append : takings (log ++ more) = takings log ++ takings more :=
  List.filterMap_append

theorem givings_append : givings (log ++ more) = givings log ++ givings more :=
  List.filterMap_append

theorem discardings_append : discardings (log ++ more) = discardings log ++ discardings more :=
  List.filterMap_append

theorem restorings_append : restorings (log ++ more) = restorings log ++ restorings more :=
  List.filterMap_append

end

/-- The store is told about every snapshot that is discarded or restored. -/
theorem count_le_givings (handle : String) (log : List Occurrence) :
    (discardings log).count handle + (restorings log).count handle ≤
      (givings log).count handle := by
  have single (x : Occurrence) :
      (discardings [x]).count handle + (restorings [x]).count handle ≤
        (givings [x]).count handle := by
    unfold discardings restorings givings
    cases x with
    | poll x =>
        obtain ⟨t, e, a, before, after⟩ := x
        cases a with
        | none => cases e <;> exact Nat.zero_le _
        | some a =>
            cases e with
            | discardSnapshot h => cases a <;> simp
            | restoreSnapshot h => cases a <;> simp
            | _ => exact Nat.zero_le _
    | _ => exact Nat.zero_le _
  induction log with
  | nil => exact Nat.le_refl _
  | cons x rest ih =>
      have hx := single x
      rw [← List.singleton_append, discardings_append, restorings_append, givings_append]
      simp only [List.count_append]
      omega

theorem mem_takings {log : List Occurrence} {run : Nat} {handle : String} :
    (run, handle) ∈ takings log ↔ ∃ t ctx before after, ctx.run = run ∧
      .poll ⟨t, .beginTransaction ctx, some (.ok handle), before, after⟩ ∈ log := by
  constructor
  · intro h
    obtain ⟨x, hx, h⟩ := List.mem_filterMap.mp h
    split at h
    · cases h
      exact ⟨_, _, _, _, rfl, hx⟩
    · cases h
  · rintro ⟨t, ctx, before, after, rfl, h⟩
    exact List.mem_filterMap.mpr ⟨_, h, rfl⟩

inductive Giving (handle : String) : Effect → Prop where
  | discard : Giving handle (.discardSnapshot handle)
  | restore : Giving handle (.restoreSnapshot handle)

theorem mem_givings {log : List Occurrence} {handle : String} :
    handle ∈ givings log ↔ ∃ t e a before after, Giving handle e ∧
      .poll ⟨t, e, some a, before, after⟩ ∈ log := by
  constructor
  · intro h
    obtain ⟨x, hx, h⟩ := List.mem_filterMap.mp h
    split at h
    · cases h
      exact ⟨_, _, _, _, _, .discard, hx⟩
    · cases h
      exact ⟨_, _, _, _, _, .restore, hx⟩
    · cases h
  · rintro ⟨t, e, a, before, after, he, h⟩
    refine List.mem_filterMap.mpr ⟨_, h, ?_⟩
    cases he <;> rfl

def Accepted : (e : Effect) → e.Answer → Prop
  | .discardSnapshot _, a => a = .ok ()
  | .restoreSnapshot _, a => a = .ok ()
  | _, _ => True

namespace Outline

variable {o o₁ o' : Outline}

/-- The script of the store stays the same, and the number of snapshots only grows. -/
theorem Polls.store {w : Wait} {e : Effect} {turn : Turn e.Answer} (h : o.Polls w o₁ e turn) :
    o₁.store.script = o.store.script ∧ o.store.store.taken ≤ o₁.store.store.taken := by
  cases h.stored with
  | same hstore =>
      rw [hstore]
      exact ⟨rfl, Nat.le_refl _⟩
  | @performed run token operation hstore =>
      obtain ⟨calls, collections, hs⟩ := o.store.perform_eq operation
      rw [hstore, hs]
      exact ⟨rfl, Nat.le_refl _⟩
  | taken hstore =>
      obtain ⟨-, hs⟩ := ScriptedStore.snapshot_eq_ok hstore
      rw [hs]
      exact ⟨rfl, Nat.le_succ _⟩
  | discarded hstore =>
      obtain ⟨-, hs⟩ := ScriptedStore.discard_eq_ok hstore
      rw [hs]
      exact ⟨rfl, Nat.le_refl _⟩
  | restored hstore =>
      obtain ⟨saved, -, hs⟩ := ScriptedStore.restore_eq_ok hstore
      rw [hs]
      exact ⟨rfl, Nat.le_refl _⟩

theorem Advances.store {config : Config} {log : List Occurrence} (h : o.Advances config log o') :
    o'.store.script = o.store.script ∧ o.store.store.taken ≤ o'.store.store.taken := by
  cases h with
  | finish running active order =>
      change (o.setTask _ _).store.script = _ ∧ _ ≤ (o.setTask _ _).store.store.taken
      rw [setTask_store]
      exact ⟨rfl, Nat.le_refl _⟩
  | answer running active start polls =>
      rw [setTask_store]
      exact polls.store
  | wait running active start polls =>
      change (setTask _ _ _).store.script = _ ∧ _ ≤ (setTask _ _ _).store.store.taken
      rw [setTask_store]
      exact polls.store
  | _ => exact ⟨rfl, Nat.le_refl _⟩

end Outline

structure Block.Of (T : Token) (c : Context) (name : String) (m : Machine) (b : Block) : Prop where
  ctx : b.ctx = c
  handle : b.handle = name
  saved : b.saved = m.world.store.store.collections
  watched : T.covers c.token = true → m.isCancelled T = false → b.watched = true
  within : b.watched = true → T.covers c.token = true

namespace Custody

variable {T : Token} {config : Config} {o o' : Outline} {log more : List Occurrence}
  {place place' : TaskId → Residence × Custody} {t : TaskId}

/-- A task has the same in hand after a move, unless it made the move. -/
theorem block_stays_or_moves (adv : o.Advances config more o') (hh : Holds T o place)
    (hh' : Holds T o' place')
    (moved : o.Moved (Residence.discipline.both (discipline T)) more o' place place') (t : TaskId) :
    (place' t).2.block? = (place t).2.block? ∨ ∃ e a before after,
      more = [.poll ⟨t, e, some a, before, after⟩] ∧
        (protocol T).moves (place t).2 e a (place' t).2 := by
  have none_of {o : Outline} {place : TaskId → Residence × Custody} (hh : Holds T o place)
      (ht : ∀ p w, o.task? t ≠ some (.active p w)) : (place t).2.block? = none := by
    cases hb : (place t).2.block? with
    | none => rfl
    | some b =>
        obtain ⟨p, w, hp⟩ := (hh.fine t).active hb
        exact absurd hp (ht p w)
  cases hs : o.task? t with
  | none =>
      refine Or.inl ((Eq.trans ?_ (none_of hh (by simp [hs])).symm))
      cases hs' : o'.task? t with
      | none => exact none_of hh' (by simp [hs'])
      | some state =>
          rcases moved.entered hs (Option.isSome_of_eq_some hs') with ⟨-, hp⟩ | ⟨b, hp⟩
          · rw [hp]
            rfl
          · rw [hp]
            rfl
  | some state =>
      cases state with
      | ended a order =>
          refine Or.inl ?_
          rcases moved.of_ended adv hs with hp | hp
          · rw [hp]
          · rw [hp, none_of hh (by simp [hs])]
            rfl
      | active p w =>
          rcases moved.stays_or_moves adv hs with hp | ⟨e, a, before, after, hlog, hmove⟩
          · exact Or.inl (by rw [hp])
          · exact Or.inr ⟨e, a, before, after, hlog, hmove.2⟩

/-- A task gets and gives its snapshot only by the effects for that. -/
theorem block_of_moves {u v : Custody} {e : Effect} {a : e.Answer}
    (hallows : (protocol T).allows u e) (hmove : (protocol T).moves u e a v)
    (hb : ∀ ctx, e ≠ .beginTransaction ctx) (hd : ∀ handle, e ≠ .discardSnapshot handle)
    (hr : ∀ handle, e ≠ .restoreSnapshot handle) : v.block? = u.block? := by
  cases u with
  | free =>
      cases e with
      | beginTransaction ctx => exact absurd rfl (hb ctx)
      | childToken token =>
          rw [hmove.2]
      | _ => rw [show v = free from hmove]
  | holding b lost =>
      have hgo (h : v = holding b lost ∧ (lost = true → Idles T e a) ∨
          v = holding b true ∧ b.watched = true ∧ lost = false ∧ Fatal e a) :
          v.block? = some b := by
        rcases h with ⟨rfl, -⟩ | ⟨rfl, -⟩ <;> rfl
      cases e with
      | beginTransaction ctx => exact absurd rfl (hb ctx)
      | releaseTransaction run handle =>
          rw [hmove.2]
          rfl
      | childToken token => rw [hmove.2]
      | _ => exact hgo hmove
  | released b lost =>
      cases e with
      | discardSnapshot handle => exact absurd rfl (hd handle)
      | restoreSnapshot handle => exact absurd rfl (hr handle)
      | _ => exact hallows.elim

/-- What a task has in hand right after it took a snapshot. -/
theorem block_of_begin {ctx : Context} {handle : String} {before after : Machine}
    (adv : o.Advances config [.poll ⟨t, .beginTransaction ctx, some (.ok handle), before, after⟩] o')
    (hh' : Holds T o' place') (hallows : (protocol T).allows (place t).2 (.beginTransaction ctx))
    (hmove : (protocol T).moves (place t).2 (.beginTransaction ctx) (.ok handle) (place' t).2) :
    handle = snapshotName (o.store.store.taken + 1) ∧
      o'.store.store.taken = o.store.store.taken + 1 ∧ (place t).2.block? = none ∧
        ∃ b, (place' t).2 = holding b false ∧ b.Of T ctx handle before := by
  cases adv with
  | @answer _ _ _ _ _ _ _ running active start polls =>
      simp only [Outline.Polls] at polls
      split at polls
      · rename_i handle' slot store hbegin
        obtain ⟨hturn, hafter⟩ := polls
        cases hturn
        obtain ⟨-, -, hs⟩ := TransactionSlot.begin_eq_ok hbegin
        obtain ⟨rfl, rfl⟩ := ScriptedStore.snapshot_eq_ok hs
        cases hplace : (place t).2 with
        | holding b lost =>
            rw [hplace] at hmove
            obtain ⟨⟨e, he⟩, -⟩ := hmove
            cases he
        | released b lost =>
            rw [hplace] at hallows
            exact hallows.elim
        | free =>
            rw [hplace] at hmove
            obtain ⟨saved, watched, hwithin, hplace'⟩ := hmove
            have hblock : (place' t).2.block? = some
                ⟨ctx, snapshotName (o.store.store.taken + 1), saved, watched⟩ := by
              rw [hplace']
              rfl
            refine ⟨rfl, ?_, rfl, _, hplace', rfl, rfl, ?_, fun hcovers hn => ?_, hwithin⟩
            · rw [Outline.setTask_store, hafter]
              rfl
            · have hsaved := (hh'.fine t).saved hblock
              rw [Outline.setTask_store, hafter] at hsaved
              rw [show before.world.store = o.store from congrArg Outline.store start]
              exact Option.some.inj (hsaved.symm.trans o.store.store.saved?_snapshot_self)
            · refine (Bool.eq_false_or_eq_true watched).resolve_right fun hw => ?_
              have hc := (hh'.fine t).unwatched hblock hw hcovers
              unfold Outline.isCancelled at hc
              rw [Outline.setTask_cancelled, hafter] at hc
              rw [Machine.isCancelled, show before.cancelled = o.cancelled from
                congrArg Outline.cancelled start] at hn
              rw [show T.isCancelled o.cancelled = true from hc] at hn
              cases hn
      · cases polls.1

structure Books (T : Token) (log : List Occurrence) (o : Outline)
    (place : TaskId → Residence × Custody) : Prop where
  named {handle : String} : handle ∈ (takings log).map Prod.snd ∨ handle ∈ givings log →
    ∃ number, number ≤ o.store.store.taken ∧ handle = snapshotName number
  distinct : ((takings log).map Prod.snd).Nodup
  once : (givings log).Nodup
  gone {handle : String} {t : TaskId} {b : Block} : handle ∈ givings log →
    (place t).2.block? = some b → b.handle ≠ handle
  inHand {t : TaskId} {ctx : Context} {handle : String} {before after : Machine} :
    .poll ⟨t, .beginTransaction ctx, some (.ok handle), before, after⟩ ∈ log →
      handle ∈ givings log ∨ ∃ b, (place t).2.block? = some b ∧ b.Of T ctx handle before
  accepted {t : TaskId} {handle : String} {e : Effect} {a : e.Answer} {before after : Machine} :
    o.store.script.restoreError = none → o.store.script.discardError = none → Giving handle e →
      .poll ⟨t, e, some a, before, after⟩ ∈ log → Accepted e a

theorem Books.empty (T : Token) (o : Outline) (place : TaskId → Residence × Custody) :
    Books T [] o place where
  named h := by rcases h with h | h <;> cases h
  distinct := List.nodup_nil
  once := List.nodup_nil
  gone h := by cases h
  inHand h := by cases h
  accepted _ _ _ h := by cases h

theorem Books.named_of_le (hk : Books T log o place)
    (htaken : o.store.store.taken ≤ o'.store.store.taken) {handle : String}
    (h : handle ∈ (takings log).map Prod.snd ∨ handle ∈ givings log) :
    ∃ number, number ≤ o'.store.store.taken ∧ handle = snapshotName number := by
  obtain ⟨number, hle, hname⟩ := hk.named h
  exact ⟨number, Nat.le_trans hle htaken, hname⟩

theorem Books.grow (hk : Books T log o place)
    (htaken : o.store.store.taken ≤ o'.store.store.taken)
    (hscript : o'.store.script = o.store.script)
    (named : ∀ {handle : String}, handle ∈ (takings more).map Prod.snd ∨ handle ∈ givings more →
      ∃ number, number ≤ o'.store.store.taken ∧ handle = snapshotName number)
    (distinct : ((takings more).map Prod.snd).Nodup)
    (fresh : ∀ handle ∈ (takings more).map Prod.snd, handle ∉ (takings log).map Prod.snd)
    (once : (givings more).Nodup) (new : ∀ handle ∈ givings more, handle ∉ givings log)
    (gone : ∀ {handle : String} {t : TaskId} {b : Block},
      handle ∈ givings log ∨ handle ∈ givings more → (place' t).2.block? = some b →
        b.handle ≠ handle)
    (inHand : ∀ {t : TaskId} {ctx : Context} {handle : String} {before after : Machine},
      .poll ⟨t, .beginTransaction ctx, some (.ok handle), before, after⟩ ∈ log ∨
        .poll ⟨t, .beginTransaction ctx, some (.ok handle), before, after⟩ ∈ more →
      (handle ∈ givings log ∨ handle ∈ givings more) ∨
        ∃ b, (place' t).2.block? = some b ∧ b.Of T ctx handle before)
    (accepted : ∀ {t : TaskId} {handle : String} {e : Effect} {a : e.Answer} {before after : Machine},
      o.store.script.restoreError = none → o.store.script.discardError = none → Giving handle e →
        .poll ⟨t, e, some a, before, after⟩ ∈ more → Accepted e a) :
    Books T (log ++ more) o' place' where
  named h := by
    rw [takings_append, givings_append, List.map_append, List.mem_append, List.mem_append] at h
    rcases h with (h | h) | h | h
    · exact hk.named_of_le htaken (Or.inl h)
    · exact named (Or.inl h)
    · exact hk.named_of_le htaken (Or.inr h)
    · exact named (Or.inr h)
  distinct := by
    rw [takings_append, List.map_append]
    refine List.nodup_append.mpr ⟨hk.distinct, distinct, ?_⟩
    rintro x hx y hy rfl
    exact fresh x hy hx
  once := by
    rw [givings_append]
    refine List.nodup_append.mpr ⟨hk.once, once, ?_⟩
    rintro x hx y hy rfl
    exact new x hy hx
  gone h hb := by
    rw [givings_append, List.mem_append] at h
    exact gone h hb
  inHand h := by
    rw [givings_append, List.mem_append]
    exact inHand (List.mem_append.mp h)
  accepted hr hd he h := by
    rw [hscript] at hr hd
    rcases List.mem_append.mp h with h | h
    · exact hk.accepted hr hd he h
    · exact accepted hr hd he h

theorem Books.calm (hk : Books T log o place) (htakings : takings more = [])
    (hgivings : givings more = []) (htaken : o.store.store.taken ≤ o'.store.store.taken)
    (hscript : o'.store.script = o.store.script)
    (hblock : ∀ t, (place' t).2.block? = (place t).2.block?) :
    Books T (log ++ more) o' place' := by
  refine hk.grow htaken hscript ?_ ?_ ?_ ?_ ?_ (fun {h t b} hh hb => ?_)
    (fun {t ctx h m m'} hm => ?_) fun {t h e a m m'} _ _ he hm => ?_
  · simp [htakings, hgivings]
  · simp [htakings]
  · simp [htakings]
  · simp [hgivings]
  · simp [hgivings]
  · rw [hblock] at hb
    exact hk.gone (hh.resolve_right (by simp [hgivings])) hb
  · rw [hblock]
    rcases hm with hm | hm
    · exact (hk.inHand hm).imp_left Or.inl
    · have := mem_takings.mpr ⟨t, ctx, m, m', rfl, hm⟩
      rw [htakings] at this
      cases this
  · have := mem_givings.mpr ⟨t, e, a, m, m', he, hm⟩
    rw [hgivings] at this
    cases this

theorem Books.take (hk : Books T log o place) {ctx : Context} {handle : String}
    {before after : Machine} {b : Block}
    (hmore : more = [.poll ⟨t, .beginTransaction ctx, some (.ok handle), before, after⟩])
    (hname : handle = snapshotName (o.store.store.taken + 1))
    (htaken : o'.store.store.taken = o.store.store.taken + 1)
    (hscript : o'.store.script = o.store.script) (hnone : (place t).2.block? = none)
    (hplace : (place' t).2.block? = some b) (hof : b.Of T ctx handle before)
    (hblock : ∀ u, u ≠ t → (place' u).2.block? = (place u).2.block?) :
    Books T (log ++ more) o' place' := by
  have htakings : (takings more).map Prod.snd = [handle] := by
    rw [hmore]
    rfl
  have hgivings : givings more = [] := by
    rw [hmore]
    rfl
  have hfresh : ¬ (handle ∈ (takings log).map Prod.snd ∨ handle ∈ givings log) := by
    intro h
    obtain ⟨number, hle, hnumber⟩ := hk.named h
    have := snapshotName_injective (hname.symm.trans hnumber)
    omega
  refine hk.grow (by omega) hscript (fun {h} hh => ?_) ?_ (fun h hh => ?_) ?_ ?_
    (fun {h u b'} hh hb => ?_) (fun {u c h m m'} hm => ?_) fun {u h e a m m'} _ _ he hm => ?_
  · obtain rfl : h = handle := by simpa [htakings, hgivings] using hh
    exact ⟨_, Nat.le_of_eq htaken.symm, hname⟩
  · simp [htakings]
  · obtain rfl : h = handle := by simpa [htakings] using hh
    exact fun hold => hfresh (Or.inl hold)
  · simp [hgivings]
  · simp [hgivings]
  · replace hh : h ∈ givings log := hh.resolve_right (by simp [hgivings])
    by_cases hu : u = t
    · subst hu
      rw [hplace] at hb
      cases hb
      rintro rfl
      exact hfresh (Or.inr (hof.handle ▸ hh))
    · rw [hblock u hu] at hb
      exact hk.gone hh hb
  · rcases hm with hm | hm
    · by_cases hu : u = t
      · subst hu
        refine Or.inl (Or.inl ((hk.inHand hm).resolve_right ?_))
        rintro ⟨b', hb', -⟩
        rw [hnone] at hb'
        cases hb'
      · rw [hblock u hu]
        exact (hk.inHand hm).imp_left Or.inl
    · rw [hmore, List.mem_singleton] at hm
      cases hm
      exact Or.inr ⟨b, hplace, hof⟩
  · have := mem_givings.mpr ⟨u, e, a, m, m', he, hm⟩
    rw [hgivings] at this
    cases this

theorem Books.give (hk : Books T log o place) {b : Block} (htakings : takings more = [])
    (hgivings : givings more = [b.handle]) (hplace : (place t).2.block? = some b)
    (hnumbered : ∃ number, number ≤ o.store.store.taken ∧ b.handle = snapshotName number)
    (htaken : o.store.store.taken ≤ o'.store.store.taken)
    (hscript : o'.store.script = o.store.script) (hnone : (place' t).2.block? = none)
    (hblock : ∀ u, u ≠ t → (place' u).2.block? = (place u).2.block?)
    (hsole : ∀ u b', (place u).2.block? = some b' → b.handle = b'.handle → t = u)
    (haccepted : ∀ {u : TaskId} {e : Effect} {a : e.Answer} {before after : Machine},
      o.store.script.restoreError = none → o.store.script.discardError = none →
        .poll ⟨u, e, some a, before, after⟩ ∈ more → Accepted e a) :
    Books T (log ++ more) o' place' := by
  refine hk.grow htaken hscript (fun {h} hh => ?_) ?_ ?_ ?_ (fun h hh => ?_)
    (fun {h u b'} hh hb => ?_) (fun {u c h m m'} hm => ?_) fun hr hd _ hm => haccepted hr hd hm
  · obtain rfl : h = b.handle := by simpa [htakings, hgivings] using hh
    obtain ⟨number, hle, hnumber⟩ := hnumbered
    exact ⟨number, Nat.le_trans hle htaken, hnumber⟩
  · simp [htakings]
  · simp [htakings]
  · simp [hgivings]
  · obtain rfl : h = b.handle := by simpa [hgivings] using hh
    exact fun hold => hk.gone hold hplace rfl
  · have hu : u ≠ t := by
      rintro rfl
      rw [hnone] at hb
      cases hb
    rw [hblock u hu] at hb
    rw [hgivings, List.mem_singleton] at hh
    rcases hh with hh | rfl
    · exact hk.gone hh hb
    · exact fun hn => hu (hsole u b' hb hn.symm).symm
  · rw [hgivings, List.mem_singleton]
    rcases hm with hm | hm
    · rcases hk.inHand hm with hg | ⟨b', hb', hof⟩
      · exact Or.inl (Or.inl hg)
      · by_cases hu : u = t
        · subst hu
          rw [hplace] at hb'
          cases hb'
          exact Or.inl (Or.inr hof.handle.symm)
        · exact Or.inr ⟨b', (hblock u hu).trans hb', hof⟩
    · have := mem_takings.mpr ⟨u, c, m, m', rfl, hm⟩
      rw [htakings] at this
      cases this

/-- The store accepts what a task says about a snapshot that is open. -/
theorem accepted_of_polls {handle : String} {e : Effect} {w : Wait} {a : e.Answer} {o₁ : Outline}
    {saved : Collections} (polls : o.Polls w o₁ e (.answered a)) (he : Giving handle e)
    (hsaved : o.store.store.saved? handle = some saved) (hr : o.store.script.restoreError = none)
    (hd : o.store.script.discardError = none) : Accepted e a := by
  cases he with
  | discard =>
      have := ScriptedStore.discard_of_saved hd (Option.isSome_of_eq_some hsaved)
      simp only [Outline.Polls, Outline.Stores, this] at polls
      obtain ⟨ha, -⟩ := polls
      cases ha
      rfl
  | restore =>
      have := ScriptedStore.restore_of_saved hr hsaved
      simp only [Outline.Polls, Outline.Stores, this] at polls
      obtain ⟨ha, -⟩ := polls
      cases ha
      rfl

section Answers

variable {e : Effect} {w : Wait} {a : e.Answer} {o₁ : Outline} {before after : Machine}

theorem Books.given (hk : Books T log o place) (hh : Holds T o place) {handle : String}
    (he : Giving handle e) (polls : o.Polls w o₁ e (.answered a))
    (hallows : (protocol T).allows (place t).2 e)
    (hmove : (protocol T).moves (place t).2 e a (place' t).2)
    (htaken : o.store.store.taken ≤ o'.store.store.taken)
    (hscript : o'.store.script = o.store.script)
    (hother : ∀ u, u ≠ t → (place' u).2.block? = (place u).2.block?) :
    Books T (log ++ [.poll ⟨t, e, some a, before, after⟩]) o' place' := by
  cases hplace : (place t).2 with
  | released b lost =>
      have hb : (place t).2.block? = some b := by
        rw [hplace]
        rfl
      rw [hplace] at hallows hmove
      obtain rfl : handle = b.handle := by
        cases he with
        | discard => exact hallows.1
        | restore => exact hallows
      have hfree : (place' t).2 = free := by
        cases he <;> exact hmove
      have hsaved := (hh.fine t).saved hb
      refine hk.give (t := t) (b := b) ?_ ?_ hb ?_ htaken hscript (by rw [hfree]; rfl) hother
        (fun u b' hb' hn => hh.sole hb hb' hn) fun {u e' a' m m'} hr hd hm => ?_
      · cases he <;> rfl
      · cases he <;> rfl
      · exact hh.numbered _ (Option.isSome_of_eq_some hsaved)
      · rw [List.mem_singleton] at hm
        cases hm
        exact accepted_of_polls polls he hsaved hr hd
  | _ =>
      rw [hplace] at hallows
      cases he <;> exact hallows.elim

theorem Books.begun (hk : Books T log o place) (hh' : Holds T o' place') {ctx : Context}
    {answer : (Effect.beginTransaction ctx).Answer}
    (adv : o.Advances config [.poll ⟨t, .beginTransaction ctx, some answer, before, after⟩] o')
    (hallows : (protocol T).allows (place t).2 (.beginTransaction ctx))
    (hmove : (protocol T).moves (place t).2 (.beginTransaction ctx) answer (place' t).2)
    (hother : ∀ u, u ≠ t → (place' u).2.block? = (place u).2.block?) :
    Books T (log ++ [.poll ⟨t, .beginTransaction ctx, some answer, before, after⟩]) o' place' := by
  obtain ⟨hscript, htaken⟩ := adv.store
  cases answer with
  | ok handle =>
      obtain ⟨hname, htaken', hnone, b, hplace, hof⟩ := block_of_begin adv hh' hallows hmove
      exact hk.take rfl hname htaken' hscript hnone (by rw [hplace]; rfl) hof hother
  | error failure =>
      refine hk.calm rfl rfl htaken hscript fun u => ?_
      by_cases hu : u = t
      · subst hu
        cases hplace : (place u).2 with
        | released b lost =>
            rw [hplace] at hallows
            exact hallows.elim
        | free =>
            rw [hplace] at hmove
            rw [show (place' u).2 = free from hmove]
        | holding b lost =>
            rw [hplace] at hmove
            rw [hmove.2]
      · exact hother u hu

theorem Books.answered (hk : Books T log o place) (hh : Holds T o place) (hh' : Holds T o' place')
    (adv : o.Advances config [.poll ⟨t, e, some a, before, after⟩] o')
    (polls : o.Polls w o₁ e (.answered a)) (hallows : (protocol T).allows (place t).2 e)
    (hmove : (protocol T).moves (place t).2 e a (place' t).2)
    (hother : ∀ u, u ≠ t → (place' u).2.block? = (place u).2.block?) :
    Books T (log ++ [.poll ⟨t, e, some a, before, after⟩]) o' place' := by
  obtain ⟨hscript, htaken⟩ := adv.store
  cases e with
  | beginTransaction ctx => exact hk.begun hh' adv hallows hmove hother
  | discardSnapshot handle =>
      exact hk.given hh .discard polls hallows hmove htaken hscript hother
  | restoreSnapshot handle =>
      exact hk.given hh .restore polls hallows hmove htaken hscript hother
  | _ =>
      refine hk.calm rfl rfl htaken hscript fun u => ?_
      by_cases hu : u = t
      · subst hu
        exact block_of_moves hallows hmove nofun nofun nofun
      · exact hother u hu

end Answers

theorem Books.step (hk : Books T log o place) (adv : o.Advances config more o')
    (hob : o.Obedient (Residence.discipline.both (discipline T)) place) (hh : Holds T o place)
    (hh' : Holds T o' place')
    (moved : o.Moved (Residence.discipline.both (discipline T)) more o' place place') :
    Books T (log ++ more) o' place' := by
  obtain ⟨hscript, htaken⟩ := adv.store
  have hmoved := block_stays_or_moves adv hh hh' moved
  by_cases hanswer : ∃ t e a before after, more = [.poll ⟨t, e, some a, before, after⟩]
  · obtain ⟨t, e, a, before, after, rfl⟩ := hanswer
    obtain ⟨next, w, active, polls⟩ : ∃ next w, o.task? t = some (.active (.perform e next) w) ∧
        o.Polls w (after.outline o.main) e (.answered a) := by
      cases adv with
      | answer running active start polls => exact ⟨_, _, active, polls⟩
    refine hk.answered hh hh' adv polls (hob.active active).1.2
      (moved.moves (Option.isSome_of_eq_some active)).2 fun u hu => ?_
    rcases hmoved u with h | ⟨_, _, _, _, h, -⟩
    · exact h
    · cases h
      exact absurd rfl hu
  · have hlog : takings more = [] ∧ givings more = [] := by
      cases adv with
      | answer running active start polls => exact absurd ⟨_, _, _, _, _, rfl⟩ hanswer
      | @wait t e next w w' before after running active start polls =>
          constructor <;> cases e <;> rfl
      | _ => exact ⟨rfl, rfl⟩
    refine hk.calm hlog.1 hlog.2 htaken hscript fun t => ?_
    rcases hmoved t with h | ⟨e, a, before, after, h, -⟩
    · exact h
    · exact absurd ⟨t, e, a, before, after, h⟩ hanswer

end Custody
end FlowEngine
