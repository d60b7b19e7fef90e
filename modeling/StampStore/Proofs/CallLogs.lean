-- What an engine with a log of its calls has logged after each part of a commit: after
-- the choice of the write time, after the check of a read, and after the writes. The
-- engine may answer each call as it likes, and others may take and give up locks while
-- a call is under way, as long as the locks of the committing transaction stay.
import StampStore.Proofs.LockBalance

namespace StampStore

variable {σ : Type}

/-! ## Calls -/

namespace Event

/-- Whether the call looks at the record under `key` because of its stamp. -/
def LooksAt (call : Event) (key : Key) : Prop := call.method = .lookupRaw ∧ call.key = key

instance (call : Event) (key : Key) : Decidable (call.LooksAt key) :=
  inferInstanceAs (Decidable (_ ∧ _))

/-- Whether the call changes a record, if it does not fail. -/
def Changes (call : Event) : Prop :=
  call.method = .insert ∨ call.method = .update ∨ call.method = .delete

/-- What a look has found: no stamp under an absent key, and nothing at all when it failed. -/
def stamp? (look : Event) : Option (Option Stamp) :=
  match look.answer with
  | .error _ => none
  | .ok none => some none
  | .ok (some record) => ((Tuple.ofRecord look.key record).toOption).map fun t => some t.stamp

/-- The read time that a look has found, zero for an absent key. -/
def rts (look : Event) : Timestamp := ((look.stamp?.getD none).getD Stamp.zero).rts

/-- What the call asks for. -/
def request (call : Event) : Method × Key × Option Bytes := (call.method, call.key, call.payload)

end Event

/-- What the commit at `ts` asks for in order to make a buffered write. -/
def WriteEntry.request (ts : Timestamp) (entry : WriteEntry) : Method × Key × Option Bytes :=
  let record := (entry.tuple.setStamp (Stamp.committedAt ts)).bytes
  match entry.op with
  | .insert => (.insert, entry.key, some record)
  | .update => (.update, entry.key, some record)
  | .delete => (.delete, entry.key, none)

@[simp] theorem WriteEntry.key_request (ts : Timestamp) (entry : WriteEntry) :
    (entry.request ts).2.1 = entry.key := by
  unfold WriteEntry.request
  cases entry.op <;> rfl

/-- A look at the key under the owner's lock has found `current`, with the write time that was
read. -/
structure ReadEntry.ConfirmedBy (entry : ReadEntry) (owner : TxnId) (look : Event)
    (current : Option Stamp) : Prop where
  looks : look.LooksAt entry.key
  locked : look.holder = some owner
  found : look.stamp? = some current
  same : entry.tuple.stamp.wts = (current.getD Stamp.zero).wts

/-- Logging the calls does not move locks. -/
theorem Engine.MovesLocks.recorded {engine : Engine σ} {R : LockTable → LockTable → Prop}
    (h : engine.MovesLocks R) : engine.recorded.MovesLocks R where
  lookupRaw key shared := h.lookupRaw key ⟨shared.stored.stored, shared.locks⟩
  insert key record shared := h.insert key record ⟨shared.stored.stored, shared.locks⟩
  update key delta shared := h.update key delta ⟨shared.stored.stored, shared.locks⟩
  delete key shared := h.delete key ⟨shared.stored.stored, shared.locks⟩

/-! ## The calls for the write time -/

/-- From `before` to `after` the log has grown by `calls`. -/
def Shared.Logs (before after : Shared (Recorded σ)) (calls : List Event) : Prop :=
  after.stored.log = before.stored.log ++ calls

theorem Shared.Logs.refl (shared : Shared (Recorded σ)) : shared.Logs shared [] :=
  (List.append_nil _).symm

theorem Shared.Logs.trans {a b c : Shared (Recorded σ)} {first rest : List Event}
    (hab : a.Logs b first) (hbc : b.Logs c rest) : a.Logs c (first ++ rest) := by
  unfold Shared.Logs at *
  rw [hbc, hab, List.append_assoc]

section Calls

variable {engine : Engine σ} {owner : TxnId}

/-- A call of a recorded engine, and its entry in the log. -/
theorem record_logs {α : Type} (method : Method) (key : Key) (payload : Option Bytes)
    (found : α → Option Bytes) (call : Shared σ → Reply σ α) (shared : Shared (Recorded σ)) :
    let reply := Engine.record method key payload found call shared
    shared.Logs reply.2 [⟨method, key, payload, shared.locks.holder? key, reply.1.map found⟩] :=
  rfl

theorem fetchStamp_logs (engine : Engine σ) (key : Key) (shared : Shared (Recorded σ)) :
    ∃ look, shared.Logs (engine.recorded.fetchStamp key shared).2 [look] ∧
      look.LooksAt key ∧ look.holder = shared.locks.holder? key ∧
      look.stamp? = (engine.recorded.fetchStamp key shared).1.toOption := by
  have hlog := record_logs .lookupRaw key none id (engine.lookupRaw key) shared
  unfold Engine.fetchStamp
  rw [show engine.recorded.lookupRaw key shared =
    Engine.record .lookupRaw key none id (engine.lookupRaw key) shared from rfl]
  generalize Engine.record .lookupRaw key none id (engine.lookupRaw key) shared = reply at hlog ⊢
  obtain ⟨answer, after⟩ := reply
  refine ⟨⟨.lookupRaw, key, none, shared.locks.holder? key, answer.map id⟩, ?_, ⟨rfl, rfl⟩, rfl, ?_⟩
  · cases answer with
    | error e => exact hlog
    | ok record => cases record <;> exact hlog
  · cases answer with
    | error e => rfl
    | ok record =>
      cases record with
      | none => rfl
      | some record =>
        simp only [Event.stamp?, Except.map, id]
        cases Tuple.ofRecord key record <;> rfl

theorem Engine.SparesLocksOf.walk (h : engine.SparesLocksOf owner) :
    engine.recorded.WriteWalk owner fun before after =>
      LockTable.SameLocksOf owner before.locks after.locks :=
  (Engine.MovesLocks.recorded h).writeWalk (LockTable.bracketed_sameLocksOf owner)

/-- The looks for the write time go along the keys, and the time is the one that they have found. -/
theorem timeAfter_logs (h : engine.SparesLocksOf owner) {keys : List Key} (ts : Timestamp)
    (shared : Shared (Recorded σ)) (hheld : ∀ key ∈ keys, shared.locks.holder? key = some owner) :
    ∃ looks, shared.Logs (engine.recorded.timeAfter keys ts shared).2 looks ∧
      (∀ look ∈ looks, look.method = .lookupRaw ∧ look.holder = some owner) ∧
      looks.map (·.key) <+: keys ∧
      ∀ time, (engine.recorded.timeAfter keys ts shared).1 = .ok (.ok time) →
        looks.map (·.key) = keys ∧
          time = looks.foldl (fun ts look => max ts (look.rts + 1)) ts := by
  induction keys generalizing ts shared with
  | nil =>
    refine ⟨[], Shared.Logs.refl _, by simp, List.prefix_rfl, ?_⟩
    intro time htime
    cases htime
    exact ⟨rfl, rfl⟩
  | cons key keys ih =>
    obtain ⟨look, hlog, ⟨hmethod, hkey⟩, hholder, hstamp⟩ := fetchStamp_logs engine key shared
    have hlocks := h.walk.fetchStamp key shared
    rw [hheld key List.mem_cons_self] at hholder
    have hone : ∀ call ∈ [look], call.method = .lookupRaw ∧ call.holder = some owner := by
      simp [hmethod, hholder]
    have hprefix : [look].map (·.key) <+: key :: keys := by simp [hkey]
    unfold Engine.timeAfter
    generalize engine.recorded.fetchStamp key shared = reply at hlog hstamp hlocks ⊢
    obtain ⟨answer, after⟩ := reply
    cases answer with
    | error e => exact ⟨[look], hlog, hone, hprefix, fun time htime => by cases htime⟩
    | ok stamp =>
      simp only
      cases hnext : (stamp.getD Stamp.zero).rts.next? with
      | none => exact ⟨[look], hlog, hone, hprefix, fun time htime => by cases htime⟩
      | some next =>
        obtain ⟨looks, hlogs, hall, hkeys, htime⟩ := ih (max ts next) after
          fun k hk => (hlocks k).mpr (hheld k (List.mem_cons_of_mem key hk))
        have hrts : look.rts + 1 = next := by
          rw [Event.rts, hstamp, Timestamp.eq_of_next? hnext]
          rfl
        refine ⟨look :: looks, hlog.trans hlogs, ?_, ?_, ?_⟩
        · exact fun call hcall => (List.mem_cons.mp hcall).elim
            (fun heq => hone call (heq ▸ List.mem_singleton_self look)) (hall call)
        · rw [List.map_cons, hkey]
          exact (List.prefix_cons_inj key).mpr hkeys
        · intro time heq
          obtain ⟨hfull, hfold⟩ := htime time heq
          rw [List.map_cons, hkey, hfull, List.foldl_cons, hrts]
          exact ⟨rfl, hfold⟩

/-! ## The calls of a check -/

/-- The calls that the check of one read makes at `ts`, and what the check answers. -/
inductive CheckCalls (owner : TxnId) (ts : Timestamp) (extend : Bool) (entry : ReadEntry) :
    List Event → Except Error (Option Conflict) → Prop where
  /-- The read was known to be good already. -/
  | covered (hcovered : ts ≤ entry.tuple.stamp.rts) : CheckCalls owner ts extend entry [] (.ok none)
  /-- A look has failed, or has found a conflict. -/
  | stopped {looks : List Event} {answer : Except Error (Option Conflict)}
      (hlooks : ∀ look ∈ looks, look.LooksAt entry.key) (hstop : answer ≠ .ok none) :
      CheckCalls owner ts extend entry looks answer
  /-- The last look confirms the read, and there is no read time to raise. -/
  | kept {looks : List Event} {look : Event} {current : Option Stamp}
      (hlooks : ∀ look ∈ looks, look.LooksAt entry.key)
      (hlook : entry.ConfirmedBy owner look current)
      (hkeep : extend = true → ∀ stamp, current = some stamp → ts ≤ stamp.rts) :
      CheckCalls owner ts extend entry (looks ++ [look]) (.ok none)
  /-- The last look confirms the read, and its read time is raised. -/
  | raised {looks : List Event} {look refresh : Event} {stamp : Stamp}
      {answer : Except Error (Option Conflict)}
      (hlooks : ∀ look ∈ looks, look.LooksAt entry.key)
      (hlook : entry.ConfirmedBy owner look (some stamp)) (hlt : stamp.rts < ts)
      (hrequest : refresh.request = (.update, entry.key, some ts.encode))
      (hlocked : refresh.holder = some owner)
      (hdone : answer = .ok none → refresh.answer = .ok none) :
      CheckCalls owner ts extend entry (looks ++ [look] ++ [refresh]) answer

variable {entry : ReadEntry} {looks : List Event}

theorem update_logs (engine : Engine σ) (key : Key) (delta : Bytes)
    (shared : Shared (Recorded σ)) :
    ∃ call, shared.Logs (engine.recorded.update key delta shared).2 [call] ∧
      call.request = (.update, key, some delta) ∧ call.holder = shared.locks.holder? key ∧
      ((engine.recorded.update key delta shared).1 = .ok () → call.answer = .ok none) := by
  refine ⟨_, record_logs .update key (some delta) (fun _ => none) (engine.update key delta) shared,
    rfl, rfl, fun hok => ?_⟩
  rw [show (Engine.record .update key (some delta) (fun _ => none) (engine.update key delta)
    shared).1 = .ok () from hok]
  rfl

theorem close_logs (engine : Engine σ) (ts : Timestamp) (extend : Bool) {look : Event}
    {current : Option Stamp} (hlooks : ∀ look ∈ looks, look.LooksAt entry.key)
    (hlook : entry.ConfirmedBy owner look current) {shared : Shared (Recorded σ)}
    (hheld : shared.locks.holder? entry.key = some owner) :
    let reply := Engine.checkLocked.close engine.recorded ts extend entry current shared
    ∃ rest, shared.Logs reply.2 rest ∧
      CheckCalls owner ts extend entry (looks ++ [look] ++ rest) reply.1 := by
  intro reply
  by_cases hraise : extend = true ∧ ∃ stamp, current = some stamp ∧ stamp.rts < ts
  · obtain ⟨rfl, stamp, rfl, hlt⟩ := hraise
    obtain ⟨refresh, hlog, hrequest, hholder, hdone⟩ :=
      update_logs engine entry.key ts.encode shared
    simp only [reply, Engine.checkLocked.close, Engine.extendRts, if_true, if_pos hlt]
    generalize engine.recorded.update entry.key ts.encode shared = made at hlog hdone ⊢
    obtain ⟨answer, after⟩ := made
    refine ⟨[refresh], ?_, .raised hlooks hlook hlt hrequest (hholder.trans hheld) ?_⟩
    · cases answer <;> exact hlog
    · cases answer with
      | error e => exact fun h => by cases h
      | ok done => exact fun _ => hdone rfl
  · have hreply : reply = (.ok none, shared) := by
      cases extend with
      | false => rfl
      | true =>
        cases current with
        | none => rfl
        | some stamp =>
          have hnot : ¬ stamp.rts < ts := fun hlt => hraise ⟨rfl, stamp, rfl, hlt⟩
          simp only [reply, Engine.checkLocked.close, Engine.extendRts, if_true, if_neg hnot]
    rw [hreply]
    refine ⟨[], Shared.Logs.refl _, ?_⟩
    rw [List.append_nil]
    refine .kept hlooks hlook fun hext stamp hstamp => ?_
    exact not_lt.mp fun hlt => hraise ⟨hext, stamp, hstamp, hlt⟩

theorem conflictWith?_eq_none_iff {entry : ReadEntry} {current : Option Stamp} :
    entry.conflictWith? current = none ↔
      entry.tuple.stamp.wts = (current.getD Stamp.zero).wts := by
  unfold ReadEntry.conflictWith?
  simp

/-- Under a lock that was taken for the check the key is looked at once more. -/
theorem checkLocked_logs (h : engine.SparesLocksOf owner) (ts : Timestamp) (extend : Bool)
    (hlooks : ∀ look ∈ looks, look.LooksAt entry.key) (current : Option Stamp)
    (shared : Shared (Recorded σ)) (hheld : shared.locks.holder? entry.key = some owner) :
    let reply := engine.recorded.checkLocked ts extend entry true current shared
    ∃ rest, shared.Logs reply.2 rest ∧
      CheckCalls owner ts extend entry (looks ++ rest) reply.1 := by
  obtain ⟨look, hlog, hlook, hholder, hstamp⟩ := fetchStamp_logs engine entry.key shared
  have hlocks := h.walk.fetchStamp entry.key shared
  have hboth : ∀ call ∈ looks ++ [look], call.LooksAt entry.key := by
    intro call hcall
    rcases List.mem_append.mp hcall with hcall | hcall
    · exact hlooks call hcall
    · rw [List.mem_singleton.mp hcall]
      exact hlook
  unfold Engine.checkLocked
  rw [if_pos rfl]
  generalize engine.recorded.fetchStamp entry.key shared = reply at hlog hstamp hlocks ⊢
  obtain ⟨answer, after⟩ := reply
  cases answer with
  | error e => exact ⟨[look], hlog, .stopped hboth (by simp)⟩
  | ok found =>
    simp only
    cases hconflict : entry.conflictWith? found with
    | some conflict => exact ⟨[look], hlog, .stopped hboth (by simp)⟩
    | none =>
      have hconfirmed : entry.ConfirmedBy owner look found :=
        ⟨hlook, hholder.trans hheld, hstamp, conflictWith?_eq_none_iff.mp hconflict⟩
      obtain ⟨rest, hrest, hcalls⟩ :=
        close_logs engine ts extend hlooks hconfirmed ((hlocks entry.key).mpr hheld)
      rw [List.append_assoc] at hcalls
      exact ⟨[look] ++ rest, hlog.trans hrest, hcalls⟩

theorem checkRead_logs (h : engine.SparesLocksOf owner) (ts : Timestamp) (extend : Bool)
    (entry : ReadEntry) (shared : Shared (Recorded σ)) :
    let reply := engine.recorded.checkRead owner ts extend entry shared
    ∃ block, shared.Logs reply.2 block ∧ CheckCalls owner ts extend entry block reply.1 := by
  unfold Engine.checkRead
  split
  · exact ⟨[], Shared.Logs.refl _, .covered ‹_›⟩
  · obtain ⟨look, hlog, hlook, hholder, hstamp⟩ := fetchStamp_logs engine entry.key shared
    have hlocks := h.walk.fetchStamp entry.key shared
    have hone : ∀ call ∈ [look], call.LooksAt entry.key := by simpa using hlook
    generalize engine.recorded.fetchStamp entry.key shared = reply at hlog hstamp hlocks ⊢
    obtain ⟨answer, after⟩ := reply
    cases answer with
    | error e => exact ⟨[look], hlog, .stopped hone (by simp)⟩
    | ok found =>
      simp only at hlocks ⊢
      cases hconflict : entry.conflictWith? found with
      | some conflict => exact ⟨[look], hlog, .stopped hone (by simp)⟩
      | none =>
        simp only
        cases hfree : after.locks.holder? entry.key with
        | none =>
          rw [LockTable.tryAcquire_free hfree]
          obtain ⟨rest, hrest, hcalls⟩ := checkLocked_logs h ts extend hone found
            { after with locks := ⟨after.locks.owners.insert entry.key owner⟩ }
            (KeyMap.get?_insert_self _ _ _)
          exact ⟨[look] ++ rest, hlog.trans hrest, hcalls⟩
        | some holder =>
          by_cases hown : holder = owner
          · -- the key is the owner's own, so the first look was made under its lock
            subst hown
            rw [LockTable.tryAcquire_own hfree]
            have hconfirmed : entry.ConfirmedBy holder look found :=
              ⟨hlook, hholder.trans ((hlocks entry.key).mp hfree), hstamp,
                conflictWith?_eq_none_iff.mp hconflict⟩
            have hnone : ∀ look ∈ ([] : List Event), look.LooksAt entry.key := by simp
            obtain ⟨rest, hrest, hcalls⟩ :=
              close_logs engine ts extend hnone hconfirmed hfree
            exact ⟨[look] ++ rest, hlog.trans hrest, hcalls⟩
          · rw [LockTable.tryAcquire_taken hfree hown]
            exact ⟨[look], hlog, .stopped hone (by simp)⟩

/-- The calls of the checks of some reads, one after the other, and what the checks answer. -/
inductive ReadsCalls (owner : TxnId) (ts : Timestamp) (extend : Bool) :
    List ReadEntry → List (List Event) → Except Error (Option Conflict) → Prop where
  | done : ReadsCalls owner ts extend [] [] (.ok none)
  | stop {entry : ReadEntry} {entries : List ReadEntry} {block : List Event}
      {answer : Except Error (Option Conflict)}
      (hblock : CheckCalls owner ts extend entry block answer) (hstop : answer ≠ .ok none) :
      ReadsCalls owner ts extend (entry :: entries) [block] answer
  | next {entry : ReadEntry} {entries : List ReadEntry} {block : List Event}
      {blocks : List (List Event)} {answer : Except Error (Option Conflict)}
      (hblock : CheckCalls owner ts extend entry block (.ok none))
      (hrest : ReadsCalls owner ts extend entries blocks answer) :
      ReadsCalls owner ts extend (entry :: entries) (block :: blocks) answer

theorem checkReads_logs (h : engine.SparesLocksOf owner) (ts : Timestamp) (extend : Bool)
    (entries : List ReadEntry) (shared : Shared (Recorded σ)) :
    let reply := engine.recorded.checkReads owner ts extend entries shared
    ∃ blocks, shared.Logs reply.2 blocks.flatten ∧
      ReadsCalls owner ts extend entries blocks reply.1 := by
  induction entries generalizing shared with
  | nil => exact ⟨[], Shared.Logs.refl _, .done⟩
  | cons entry entries ih =>
    obtain ⟨block, hlog, hblock⟩ := checkRead_logs h ts extend entry shared
    unfold Engine.checkReads
    generalize engine.recorded.checkRead owner ts extend entry shared = reply at hlog hblock ⊢
    obtain ⟨answer, after⟩ := reply
    have hone : [block].flatten = block := by simp
    cases answer with
    | error e => exact ⟨[block], by rwa [hone], .stop hblock (by simp)⟩
    | ok found =>
      cases found with
      | some conflict => exact ⟨[block], by rwa [hone], .stop hblock (by simp)⟩
      | none =>
        obtain ⟨blocks, hlogs, hblocks⟩ := ih after
        exact ⟨block :: blocks, hlog.trans hlogs, .next hblock hblocks⟩

theorem validateReads_logs {txn : Transaction} (h : engine.SparesLocksOf txn.id) (ts : Timestamp)
    (shared : Shared (Recorded σ)) :
    let reply := txn.validateReads engine.recorded ts shared
    ∃ blocks, shared.Logs reply.2 blocks.flatten ∧
      ReadsCalls txn.id ts txn.isolation.extendsReads txn.reads.entries blocks reply.1 :=
  checkReads_logs h ts txn.isolation.extendsReads txn.reads.entries shared

/-! ## The calls of the writes -/

theorem install_logs (engine : Engine σ) (ts : Timestamp) (entry : WriteEntry)
    (shared : Shared (Recorded σ)) :
    ∃ call, shared.Logs (engine.recorded.install ts entry shared).2 [call] ∧
      call.request = entry.request ts ∧ call.holder = shared.locks.holder? entry.key := by
  unfold Engine.install WriteEntry.request
  cases entry.op with
  | insert => exact ⟨_, record_logs .insert entry.key _ _ _ shared, rfl, rfl⟩
  | update => exact ⟨_, record_logs .update entry.key _ _ _ shared, rfl, rfl⟩
  | delete => exact ⟨_, record_logs .delete entry.key _ _ _ shared, rfl, rfl⟩

theorem installAll_logs (h : engine.SparesLocksOf owner) (ts : Timestamp)
    {entries : List WriteEntry} (done : Nat) (shared : Shared (Recorded σ))
    (hheld : ∀ entry ∈ entries, shared.locks.holder? entry.key = some owner) :
    let reply := engine.recorded.installAll ts entries done shared
    ∃ writes, shared.Logs reply.2 writes ∧
      writes.map Event.request <+: entries.map (WriteEntry.request ts) ∧
      (∀ call ∈ writes, call.holder = some owner) ∧
      (reply.1 = none → writes.length = entries.length) := by
  induction entries generalizing done shared with
  | nil => exact ⟨[], Shared.Logs.refl _, by simp, by simp, fun _ => rfl⟩
  | cons entry entries ih =>
    obtain ⟨call, hlog, hrequest, hholder⟩ := install_logs engine ts entry shared
    have hlocks := h.walk.install ts entry shared
    rw [hheld entry List.mem_cons_self] at hholder
    unfold Engine.installAll
    generalize engine.recorded.install ts entry shared = reply at hlog hlocks ⊢
    obtain ⟨answer, after⟩ := reply
    cases answer with
    | error e => exact ⟨[call], hlog, by simp [hrequest], by simpa using hholder, by simp⟩
    | ok made =>
      obtain ⟨writes, hlogs, hrequests, hholders, hlength⟩ := ih (done + 1) after
        fun e he => (hlocks e.key).mpr (hheld e (List.mem_cons_of_mem entry he))
      refine ⟨call :: writes, hlog.trans hlogs, ?_, ?_, ?_⟩
      · rw [List.map_cons, List.map_cons, hrequest]
        exact (List.prefix_cons_inj _).mpr hrequests
      · exact List.forall_mem_cons.mpr ⟨hholder, hholders⟩
      · exact fun hnone => congrArg (· + 1) (hlength hnone)

theorem writeAll_logs (h : engine.SparesLocksOf owner) {txn : Transaction}
    (shared : Shared (Recorded σ))
    (hheld : ∀ key ∈ txn.writes.keys, shared.locks.holder? key = some owner) :
    let reply := txn.writeAll engine.recorded shared
    ∃ writes, shared.Logs reply.2 writes ∧
      writes.map Event.request <+: txn.writes.entries.map (WriteEntry.request txn.commitWts) ∧
      (∀ call ∈ writes, call.holder = some owner) ∧
      ((∃ c, reply.1 = .ok (.committed c)) → writes.length = txn.writes.entries.length) := by
  obtain ⟨writes, hlog, hrequests, hholders, hlength⟩ := installAll_logs h txn.commitWts 0 shared
    fun entry hentry => hheld entry.key (List.mem_map_of_mem hentry)
  unfold Transaction.writeAll
  generalize engine.recorded.installAll txn.commitWts txn.writes.entries 0 shared = reply
    at hlog hlength ⊢
  obtain ⟨stop, after⟩ := reply
  refine ⟨writes, ?_, hrequests, hholders, ?_⟩
  · cases stop <;> exact hlog
  · cases stop with
    | none => exact fun _ => hlength rfl
    | some stop => simp

end Calls

end StampStore
