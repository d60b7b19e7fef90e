-- The calls of a commit, in the order in which its engine receives them. First come
-- looks at the written keys, for the write time; then, read by read, the calls of the
-- checks; then the writes, in key order. Whatever the calls answer, those that change
-- a record are made under the transaction's lock on it, a read time is raised only as
-- the last look under the lock has found it, and no write comes before the last check.
import StampStore.Proofs.CallLogs

namespace StampStore

variable {σ : Type}

/-! ## Disciplined calls -/

/-- The last of the calls that looks at `key`. -/
def latestLook? (calls : List Event) (key : Key) : Option Event :=
  (calls.filter fun call => call.LooksAt key).getLast?

namespace ReadEntry

/-- The call raises the read time of the version that was read to `ts`. The last look before it has
found that version, under the owner's lock, with an earlier read time. -/
structure RaisedBy (entry : ReadEntry) (owner : TxnId) (ts : Timestamp) (before : List Event)
    (refresh : Event) : Prop where
  request : refresh.request = (.update, entry.key, some ts.encode)
  locked : refresh.holder = some owner
  latest : ∃ look stamp, latestLook? before entry.key = some look ∧
    entry.ConfirmedBy owner look (some stamp) ∧ stamp.rts < ts

/-- With these calls the read has passed its check: it was known to be good at `ts`, or the last
look at its key has confirmed it and its read time has been raised where it had to be. -/
def Passed (entry : ReadEntry) (owner : TxnId) (ts : Timestamp) (extend : Bool)
    (calls : List Event) : Prop :=
  ts ≤ entry.tuple.stamp.rts ∨
    ∃ look current, latestLook? calls entry.key = some look ∧
      entry.ConfirmedBy owner look current ∧
      (extend = true → ∀ stamp, current = some stamp → stamp.rts < ts →
        ∃ refresh, calls.getLast? = some refresh ∧ refresh.method = .update ∧
          refresh.answer = .ok none)

end ReadEntry

/-- The calls of a commit: the looks for its write time, the calls of each check of a read that it
has come to, and its writes. -/
structure CommitCalls where
  times : List Event
  checks : List (List Event)
  writes : List Event

namespace CommitCalls

/-- All the calls in order. -/
def all (calls : CommitCalls) : List Event := calls.times ++ calls.checks.flatten ++ calls.writes

/-- The calls before the check of the read at `i`. -/
def beforeCheck (calls : CommitCalls) (i : Nat) : List Event :=
  calls.times ++ (calls.checks.take i).flatten

/-- The calls are those of a disciplined commit of `txn` that has left `after` and this answer. -/
structure Disciplined (calls : CommitCalls) (txn after : Transaction)
    (answer : Except Failure Outcome) : Prop where
  /-- The looks for the write time go along the written keys, under their locks. -/
  times_keys : calls.times.map (·.key) <+: txn.writes.sorted.keys
  times_locked : ∀ look ∈ calls.times, look.method = .lookupRaw ∧ look.holder = some txn.id
  /-- Nothing is checked, written or committed before the write time has been taken from looks at
  all written keys. -/
  time_chosen : calls.checks ≠ [] ∨ calls.writes ≠ [] ∨ (∃ c, answer = .ok (.committed c)) →
    calls.times.map (·.key) = txn.writes.sorted.keys ∧
      after.commitWts =
        calls.times.foldl (fun ts look => max ts (look.rts + 1)) txn.ready.commitWts
  /-- What changes a record is done under the lock of its key. -/
  changes_locked : ∀ call ∈ calls.all, call.Changes → call.holder = some txn.id
  /-- The check of a read looks at its key and raises its read time. -/
  checks_calls : ∀ (i : Nat) block, calls.checks[i]? = some block →
    ∃ entry, txn.reads.entries[i]? = some entry ∧
      (∀ call ∈ block, call.LooksAt entry.key ∨ call.method = .update) ∧
      ∀ before refresh rest, block = before ++ refresh :: rest → refresh.method = .update →
        entry.RaisedBy txn.id after.validationTime (calls.beforeCheck i ++ before) refresh
  /-- All reads have passed before the first write, and before a commit without writes. -/
  all_passed : calls.writes ≠ [] ∨ (∃ c, answer = .ok (.committed c)) →
    calls.checks.length = txn.reads.length ∧
      ∀ (i : Nat) entry block, txn.reads.entries[i]? = some entry →
        calls.checks[i]? = some block →
        entry.Passed txn.id after.validationTime txn.isolation.extendsReads block
  /-- The writes are those that were buffered, from the first key on. -/
  writes_requests : calls.writes.map Event.request <+:
    txn.writes.sorted.entries.map (WriteEntry.request after.commitWts)
  writes_ascending : (calls.writes.map (·.key)).Pairwise (· < ·)
  all_written : (∃ c, answer = .ok (.committed c)) →
    calls.writes.map (·.key) = txn.writes.sorted.keys

end CommitCalls

/-! ## Disciplined checks -/

theorem latestLook?_append_self {calls : List Event} {look : Event} {key : Key}
    (h : look.LooksAt key) : latestLook? (calls ++ [look]) key = some look := by
  unfold latestLook?
  rw [List.filter_append, List.filter_cons_of_pos (by simpa using h)]
  simp

theorem latestLook?_append_of_not {calls : List Event} {call : Event} {key : Key}
    (h : ¬ call.LooksAt key) : latestLook? (calls ++ [call]) key = latestLook? calls key := by
  unfold latestLook?
  rw [List.filter_append, List.filter_cons_of_neg (by simpa using h)]
  simp

theorem Event.not_changes {call : Event} {key : Key} (h : call.LooksAt key) : ¬ call.Changes := by
  unfold Event.Changes
  rw [h.1]
  simp

theorem eq_of_append_singleton {α : Type} {l before rest : List α} {x y : α}
    (h : l ++ [x] = before ++ y :: rest) (hy : y ∉ l) : before = l ∧ y = x := by
  rcases List.eq_nil_or_concat rest with rfl | ⟨rest', z, rfl⟩
  · obtain ⟨rfl, hxy⟩ := List.append_inj' h rfl
    exact ⟨rfl, (List.singleton_inj.mp hxy).symm⟩
  · exfalso
    rw [List.concat_eq_append, ← List.cons_append, ← List.append_assoc] at h
    obtain ⟨rfl, -⟩ := List.append_inj' h rfl
    exact hy (List.mem_append_right before List.mem_cons_self)

namespace CheckCalls

variable {owner : TxnId} {ts : Timestamp} {extend : Bool} {entry : ReadEntry}
  {block : List Event} {answer : Except Error (Option Conflict)}

/-- A check only looks at its key, but for a last call that raises the read time. -/
theorem looks_or_raises (h : CheckCalls owner ts extend entry block answer) :
    (∀ call ∈ block, call.LooksAt entry.key) ∨
      ∃ looks refresh, block = looks ++ [refresh] ∧ (∀ look ∈ looks, look.LooksAt entry.key) ∧
        ∀ prior, entry.RaisedBy owner ts (prior ++ looks) refresh := by
  cases h with
  | covered => exact Or.inl (by simp)
  | stopped hlooks => exact Or.inl hlooks
  | kept hlooks hlook =>
    refine Or.inl (List.forall_mem_append.mpr ⟨hlooks, ?_⟩)
    simpa using hlook.looks
  | @raised looks look refresh stamp _ hlooks hlook hlt hrequest hlocked =>
    refine Or.inr ⟨looks ++ [look], refresh, rfl, ?_, fun prior => ⟨hrequest, hlocked, ?_⟩⟩
    · exact List.forall_mem_append.mpr ⟨hlooks, by simpa using hlook.looks⟩
    · rw [← List.append_assoc]
      exact ⟨look, stamp, latestLook?_append_self hlook.looks, hlook, hlt⟩

theorem looks_or_update (h : CheckCalls owner ts extend entry block answer) :
    ∀ call ∈ block, call.LooksAt entry.key ∨ call.method = .update := by
  intro call hcall
  rcases h.looks_or_raises with hlooks | ⟨looks, refresh, rfl, hlooks, hraised⟩
  · exact Or.inl (hlooks call hcall)
  · rcases List.mem_append.mp hcall with hcall | hcall
    · exact Or.inl (hlooks call hcall)
    · rw [List.mem_singleton.mp hcall]
      exact Or.inr (congrArg Prod.fst (hraised []).request)

theorem changes_locked (h : CheckCalls owner ts extend entry block answer) {call : Event}
    (hcall : call ∈ block) (hchanges : call.Changes) : call.holder = some owner := by
  rcases h.looks_or_raises with hlooks | ⟨looks, refresh, rfl, hlooks, hraised⟩
  · exact absurd hchanges (Event.not_changes (hlooks call hcall))
  · rcases List.mem_append.mp hcall with hcall | hcall
    · exact absurd hchanges (Event.not_changes (hlooks call hcall))
    · rw [List.mem_singleton.mp hcall]
      exact (hraised []).locked

theorem raisedBy (h : CheckCalls owner ts extend entry block answer) {before rest : List Event}
    {refresh : Event} (hblock : block = before ++ refresh :: rest)
    (hupdate : refresh.method = .update) (prior : List Event) :
    entry.RaisedBy owner ts (prior ++ before) refresh := by
  have hnot : ∀ looks : List Event, (∀ look ∈ looks, look.LooksAt entry.key) →
      refresh ∉ looks := by
    intro looks hlooks hmem
    have hlook := (hlooks refresh hmem).1
    rw [hupdate] at hlook
    cases hlook
  rcases h.looks_or_raises with hlooks | ⟨looks, raise, hraise, hlooks, hraised⟩
  · refine absurd ?_ (hnot block hlooks)
    rw [hblock]
    exact List.mem_append_right before List.mem_cons_self
  · obtain ⟨rfl, rfl⟩ := eq_of_append_singleton (hraise.symm.trans hblock) (hnot looks hlooks)
    exact hraised prior

theorem passed (h : CheckCalls owner ts extend entry block (.ok none)) :
    entry.Passed owner ts extend block := by
  cases h with
  | covered hcovered => exact Or.inl hcovered
  | stopped _ hstop => exact absurd rfl hstop
  | @kept looks look current hlooks hlook hkeep =>
    refine Or.inr ⟨look, current, latestLook?_append_self hlook.looks, hlook, ?_⟩
    exact fun hext stamp hstamp hlt => absurd hlt (not_lt.mpr (hkeep hext stamp hstamp))
  | @raised looks look refresh stamp _ hlooks hlook hlt hrequest hlocked hdone =>
    have hmethod : refresh.method = .update := congrArg Prod.fst hrequest
    have hnot : ¬ refresh.LooksAt entry.key := by
      rintro ⟨hlook, -⟩
      rw [hmethod] at hlook
      cases hlook
    refine Or.inr ⟨look, some stamp, ?_, hlook, fun _ _ _ _ => ?_⟩
    · rw [latestLook?_append_of_not hnot]
      exact latestLook?_append_self hlook.looks
    · exact ⟨refresh, by simp, hmethod, hdone rfl⟩

end CheckCalls

namespace ReadsCalls

variable {owner : TxnId} {ts : Timestamp} {extend : Bool} {entries : List ReadEntry}
  {blocks : List (List Event)} {answer : Except Error (Option Conflict)}

/-- Each block of calls is that of the read in its place. -/
theorem checkCalls (h : ReadsCalls owner ts extend entries blocks answer) {i : Nat}
    {block : List Event} (hblock : blocks[i]? = some block) :
    ∃ entry found, entries[i]? = some entry ∧ CheckCalls owner ts extend entry block found ∧
      (answer = .ok none → found = .ok none) := by
  induction h generalizing i with
  | done => simp at hblock
  | @stop entry _ block' answer hfirst hstop =>
    cases i with
    | zero =>
      cases hblock
      exact ⟨entry, answer, rfl, hfirst, id⟩
    | succ i => simp at hblock
  | @next entry _ block' _ _ hfirst _ ih =>
    cases i with
    | zero =>
      cases hblock
      exact ⟨entry, _, rfl, hfirst, fun _ => rfl⟩
    | succ i => exact ih hblock

theorem length_eq (h : ReadsCalls owner ts extend entries blocks answer)
    (hgood : answer = .ok none) : blocks.length = entries.length := by
  induction h with
  | done => rfl
  | stop _ hstop => exact absurd hgood hstop
  | next _ _ ih => exact congrArg (· + 1) (ih hgood)

theorem changes_locked (h : ReadsCalls owner ts extend entries blocks answer) {call : Event}
    (hcall : call ∈ blocks.flatten) (hchanges : call.Changes) : call.holder = some owner := by
  obtain ⟨block, hblock, hcall⟩ := List.mem_flatten.mp hcall
  obtain ⟨i, hi⟩ := List.mem_iff_getElem?.mp hblock
  obtain ⟨entry, found, -, hcheck, -⟩ := h.checkCalls hi
  exact hcheck.changes_locked hcall hchanges

end ReadsCalls

/-! ## Disciplined commits -/

/-- Calls that ask for the first of some writes go along the first of their keys. -/
theorem keys_of_requests {calls : List Event} {ts : Timestamp} {buffer : WriteBuffer}
    (h : calls.map Event.request <+: buffer.entries.map (WriteEntry.request ts)) :
    calls.map (·.key) <+: buffer.keys := by
  have hkeys := h.map fun request => request.2.1
  rw [List.map_map, List.map_map] at hkeys
  have hentries : ((fun request => request.2.1) ∘ WriteEntry.request ts) = WriteEntry.key :=
    funext fun entry => entry.key_request ts
  rw [hentries] at hkeys
  exact hkeys

namespace CommitCalls

variable {txn : Transaction}

/-- A commit that makes no calls is disciplined. -/
theorem Disciplined.of_unchosen {looks : List Event} {after : Transaction}
    {answer : Except Failure Outcome} (hkeys : looks.map (·.key) <+: txn.writes.sorted.keys)
    (hlooks : ∀ look ∈ looks, look.method = .lookupRaw ∧ look.holder = some txn.id)
    (hanswer : ∀ c, answer ≠ .ok (.committed c)) :
    (CommitCalls.mk looks [] []).Disciplined txn after answer where
  times_keys := hkeys
  times_locked := hlooks
  time_chosen := by simp [hanswer]
  changes_locked := by
    intro call hcall hchanges
    simp only [all, List.flatten_nil, List.append_nil] at hcall
    exact absurd hchanges (Event.not_changes ⟨(hlooks call hcall).1, rfl⟩)
  checks_calls := by simp
  all_passed := by simp [hanswer]
  writes_requests := by simp
  writes_ascending := by simp
  all_written := by simp [hanswer]

/-- A commit whose write time is chosen is disciplined if its checks and its writes are. -/
theorem Disciplined.of_chosen {calls : CommitCalls} {after : Transaction}
    {answer : Except Failure Outcome} {verdict : Except Error (Option Conflict)}
    (hkeys : calls.times.map (·.key) = txn.writes.sorted.keys)
    (hlooks : ∀ look ∈ calls.times, look.method = .lookupRaw ∧ look.holder = some txn.id)
    (htime : after.commitWts =
      calls.times.foldl (fun ts look => max ts (look.rts + 1)) txn.ready.commitWts)
    (hchecks : ReadsCalls txn.id after.validationTime txn.isolation.extendsReads
      txn.reads.entries calls.checks verdict)
    (hverdict : calls.writes ≠ [] ∨ (∃ c, answer = .ok (.committed c)) → verdict = .ok none)
    (hrequests : calls.writes.map Event.request <+:
      txn.writes.sorted.entries.map (WriteEntry.request after.commitWts))
    (hlocked : ∀ call ∈ calls.writes, call.holder = some txn.id)
    (hlength : (∃ c, answer = .ok (.committed c)) →
      calls.writes.length = txn.writes.sorted.entries.length) :
    calls.Disciplined txn after answer where
  times_keys := hkeys ▸ List.prefix_rfl
  times_locked := hlooks
  time_chosen _ := ⟨hkeys, htime⟩
  changes_locked := by
    intro call hcall hchanges
    rcases List.mem_append.mp hcall with hcall | hcall
    · rcases List.mem_append.mp hcall with hcall | hcall
      · exact absurd hchanges (Event.not_changes ⟨(hlooks call hcall).1, rfl⟩)
      · exact hchecks.changes_locked hcall hchanges
    · exact hlocked call hcall
  checks_calls := by
    intro i block hblock
    obtain ⟨entry, found, hentry, hcheck, -⟩ := hchecks.checkCalls hblock
    exact ⟨entry, hentry, hcheck.looks_or_update,
      fun before refresh rest hsplit hupdate => hcheck.raisedBy hsplit hupdate _⟩
  all_passed := by
    intro hreached
    have hgood := hverdict hreached
    refine ⟨hchecks.length_eq hgood, fun i entry block hentry hblock => ?_⟩
    obtain ⟨entry', found, hentry', hcheck, hfound⟩ := hchecks.checkCalls hblock
    rw [hentry] at hentry'
    cases hentry'
    rw [hfound hgood] at hcheck
    exact hcheck.passed
  writes_requests := hrequests
  writes_ascending := txn.writes.sorted_ascending.sublist (keys_of_requests hrequests).sublist
  all_written := by
    intro hcommitted
    refine (keys_of_requests hrequests).eq_of_length ?_
    rw [List.length_map, hlength hcommitted]
    exact (List.length_map _).symm

/-- A commit that its checks have stopped is disciplined if they are. -/
theorem Disciplined.of_refused {looks : List Event} {blocks : List (List Event)}
    {after : Transaction} {answer : Except Failure Outcome}
    {verdict : Except Error (Option Conflict)} (hkeys : looks.map (·.key) = txn.writes.sorted.keys)
    (hlooks : ∀ look ∈ looks, look.method = .lookupRaw ∧ look.holder = some txn.id)
    (htime : after.commitWts =
      looks.foldl (fun ts look => max ts (look.rts + 1)) txn.ready.commitWts)
    (hchecks : ReadsCalls txn.id after.validationTime txn.isolation.extendsReads
      txn.reads.entries blocks verdict)
    (hanswer : ∀ c, answer ≠ .ok (.committed c)) :
    (CommitCalls.mk looks blocks []).Disciplined txn after answer := by
  have hnot : ¬ ∃ c, answer = .ok (.committed c) := fun ⟨c, hc⟩ => hanswer c hc
  exact .of_chosen hkeys hlooks htime hchecks (fun h => absurd rfl (h.resolve_right hnot))
    (by simp) (by simp) fun h => absurd h hnot

/-- Only the times that the commit has chosen matter of the transaction that it leaves. -/
theorem Disciplined.finish {calls : CommitCalls} {after : Transaction}
    {answer : Except Failure Outcome} (h : calls.Disciplined txn after answer) (status : Status) :
    calls.Disciplined txn (after.finish status) answer :=
  ⟨h.times_keys, h.times_locked, h.time_chosen, h.changes_locked, h.checks_calls, h.all_passed,
    h.writes_requests, h.writes_ascending, h.all_written⟩

end CommitCalls

variable {engine : Engine σ} {txn : Transaction}

theorem underLocks_calls (h : engine.SparesLocksOf txn.id) (shared : Shared (Recorded σ))
    (hheld : ∀ key ∈ txn.writes.sorted.keys, shared.locks.holder? key = some txn.id) :
    let turn := txn.ready.underLocks engine.recorded shared
    ∃ calls : CommitCalls, shared.Logs turn.after calls.all ∧
      calls.Disciplined txn turn.txn (turn.answer.mapError .error) := by
  rw [← txn.ready_writes] at hheld
  obtain ⟨looks, hlog, hlooks, hkeys, htime⟩ := timeAfter_logs h txn.ready.commitWts shared hheld
  have hlocks := h.walk.timeAfter txn.ready.writes.keys txn.ready.commitWts shared
  have hunchosen : shared.Logs (engine.recorded.timeAfter txn.ready.writes.keys
      txn.ready.commitWts shared).2 (CommitCalls.mk looks [] []).all := by
    simpa [CommitCalls.all] using hlog
  unfold Transaction.underLocks Transaction.chooseWriteTime
  generalize engine.recorded.timeAfter txn.ready.writes.keys txn.ready.commitWts shared = choice
    at hlog hunchosen htime hlocks ⊢
  rw [txn.ready_writes] at hkeys htime hheld
  obtain ⟨answer, after⟩ := choice
  cases answer with
  | error e => exact ⟨_, hunchosen, .of_unchosen hkeys hlooks (by simp [Except.mapError])⟩
  | ok found =>
    cases found with
    | error conflict =>
      exact ⟨_, hunchosen, .of_unchosen hkeys hlooks (by simp [Except.mapError])⟩
    | ok time =>
      obtain ⟨hfull, hfold⟩ := htime time rfl
      have hat : ({ txn.ready with commitWts := time } : Transaction) = txn.readyAt time := rfl
      simp only [hat]
      have hready : engine.SparesLocksOf (txn.readyAt time).id := by rwa [txn.readyAt_id]
      obtain ⟨blocks, hblocks, hchecks⟩ :=
        validateReads_logs hready (txn.readyAt time).validationTime after
      have hlocks' := hready.walk.toWalk.validateReads (txn.readyAt time).validationTime
        (fun _ _ _ shared => hready.walk.update _ _ shared) after
      rw [txn.readyAt_id] at hlocks'
      rw [txn.readyAt_id, txn.readyAt_isolation, txn.readyAt_reads] at hchecks
      generalize (txn.readyAt time).validateReads engine.recorded
        (txn.readyAt time).validationTime after = reply at hblocks hchecks hlocks' ⊢
      obtain ⟨verdict, checked⟩ := reply
      have hstopped : shared.Logs checked (CommitCalls.mk looks blocks []).all := by
        simpa [CommitCalls.all] using hlog.trans hblocks
      cases verdict with
      | error e =>
        exact ⟨_, hstopped, .of_refused hfull hlooks hfold hchecks (by simp [Except.mapError])⟩
      | ok fault =>
        cases fault with
        | some conflict =>
          exact ⟨_, hstopped, .of_refused hfull hlooks hfold hchecks (by simp [Except.mapError])⟩
        | none =>
          have hkept : ∀ key ∈ (txn.readyAt time).writes.keys,
              checked.locks.holder? key = some txn.id := by
            rw [txn.readyAt_writes]
            exact fun key hkey => (hlocks' key).mpr ((hlocks key).mpr (hheld key hkey))
          obtain ⟨writes, hwrites, hrequests, hholders, hlength⟩ := writeAll_logs h checked hkept
          rw [txn.readyAt_writes] at hrequests hlength
          simp only
          generalize (txn.readyAt time).writeAll engine.recorded checked = reply
            at hwrites hlength ⊢
          obtain ⟨answer, after⟩ := reply
          refine ⟨⟨looks, blocks, writes⟩, (hlog.trans hblocks).trans hwrites,
            .of_chosen hfull hlooks hfold hchecks (fun _ => rfl) hrequests hholders ?_⟩
          rintro ⟨c, hc⟩
          refine hlength ⟨c, ?_⟩
          cases answer with
          | error e => cases hc
          | ok outcome => exact congrArg Except.ok (Except.ok.inj hc)

/-- The order in which the keys were first written makes no difference to the sorted writes. -/
theorem WriteBuffer.sorted_of_perm {a b : WriteBuffer} (h : a.entries.Perm b.entries) :
    a.sorted = b.sorted := by
  have hascending : ∀ buffer : WriteBuffer,
      buffer.sorted.entries.Pairwise fun x y => x.key < y.key :=
    fun buffer => List.pairwise_map.mp buffer.sorted_ascending
  have hentries : a.sorted.entries = b.sorted.entries :=
    List.Perm.eq_of_pairwise (fun x y _ _ hxy hyx => absurd hyx (Key.lt_asymm hxy))
      (hascending a) (hascending b) ((a.sorted_perm.trans h).trans b.sorted_perm.symm)
  cases ha : a.sorted
  cases hb : b.sorted
  rw [ha, hb] at hentries
  cases hentries
  rfl

theorem commit_of_perm (engine : Engine σ) (hactive : txn.isActive = true) {writes : WriteBuffer}
    (h : writes.entries.Perm txn.writes.entries) (rounds : List LockTable.Releases)
    (shared : Shared σ) :
    let left := txn.commit engine rounds shared
    let other := { txn with writes }.commit engine rounds shared
    other.answer = left.answer ∧ other.shared = left.shared ∧
      other.lockRetries = left.lockRetries ∧
      (left.answer ≠ .error .blocked → other.txn = left.txn) := by
  intro left other
  have hactive' : ({ txn with writes } : Transaction).isActive = true := hactive
  have hsorted := WriteBuffer.sorted_of_perm h
  simp only [left, other, Transaction.commit, hactive, hactive', if_true, hsorted]
  generalize LockTable.lockWaiting _ txn.id rounds shared.locks = locked
  cases locked with
  | none => exact ⟨rfl, rfl, rfl, fun h => absurd rfl h⟩
  | some locked => exact ⟨rfl, rfl, rfl, fun _ => rfl⟩

/-- The lock discipline of a commit. Whatever its engine answers, and whatever locks others take
and give up while a call is under way, the calls of an active transaction's commit fall into looks
for the write time, checks of reads, and writes, as `CommitCalls.Disciplined` says; and calls,
answer and leftovers are the same in whatever order the keys were buffered. -/
theorem commit_calls_disciplined {engine : Engine σ} {txn : Transaction}
    (hengine : engine.SparesLocksOf txn.id) (hactive : txn.isActive = true)
    (rounds : List LockTable.Releases) (stored : σ) (locks : LockTable) :
    let shared : Shared (Recorded σ) := ⟨⟨stored, []⟩, locks⟩
    let left := txn.commit engine.recorded rounds shared
    (∃ calls : CommitCalls, left.shared.stored.log = calls.all ∧
      calls.Disciplined txn left.txn left.answer) ∧
    ∀ writes : WriteBuffer, writes.entries.Perm txn.writes.entries →
      let other := { txn with writes }.commit engine.recorded rounds shared
      other.answer = left.answer ∧ other.shared = left.shared ∧
        other.lockRetries = left.lockRetries ∧
        (left.answer ≠ .error .blocked → other.txn = left.txn) := by
  intro shared left
  refine ⟨?_, fun writes hperm => commit_of_perm _ hactive hperm rounds shared⟩
  cases hlock : LockTable.lockWaiting txn.ready.writes.keys txn.id rounds locks with
  | none =>
    have hleft : left = ⟨.error .blocked, txn, shared, 0⟩ :=
      commit_of_blocked engine.recorded hactive hlock
    rw [hleft]
    exact ⟨⟨[], [], []⟩, rfl, .of_unchosen (by simp) (by simp) (by simp)⟩
  | some locked =>
    obtain ⟨held, retries⟩ := locked
    have hheld := LockTable.holder?_lockWaiting hlock
    rw [txn.ready_writes] at hheld
    obtain ⟨calls, hlog, hcalls⟩ :=
      underLocks_calls hengine ⟨⟨stored, []⟩, held⟩ hheld
    rcases hrun : txn.ready.underLocks engine.recorded ⟨⟨stored, []⟩, held⟩ with
      ⟨answer, decided, after⟩
    rw [hrun] at hlog hcalls
    have hleft : left = _ := commit_of_locked engine.recorded hactive hlock hrun
    rw [hleft]
    exact ⟨calls, hlog, hcalls.finish _⟩

/-- Two reads and two writes, on three keys. The first look at the key that is only read finds it
unlocked; under its lock it is looked at again, and its read time is raised. The other read is of a
key that is written as well, so one look under its lock is enough. -/
theorem calls_of_two_reads_and_two_writes :
    let j : Key := ⟨[106]⟩
    let k : Key := ⟨[107]⟩
    let l : Key := ⟨[108]⟩
    let read := Tuple.make ⟨1, 1⟩ [49]
    let both := Tuple.make ⟨4, 4⟩ [50]
    let records : Records := (KeyMap.empty.insert j read.bytes).insert l both.bytes
    let txn : Transaction := { Transaction.start 3 .serializable with
      reads := ⟨[⟨j, read⟩, ⟨l, both⟩]⟩
      writes := ⟨[⟨l, .insert, Tuple.unstamped [51]⟩, ⟨k, .insert, Tuple.unstamped [52]⟩],
        by decide⟩ }
    let left := txn.commit (Engine.memory MergeOperator.replace.tuple).recorded []
      ⟨⟨records, []⟩, LockTable.empty⟩
    left.answer = .ok (.committed 5) ∧
      left.shared.stored.log.map (fun call => (call.method, call.key, call.holder)) =
        [(.lookupRaw, k, some 3), (.lookupRaw, l, some 3),
          (.lookupRaw, j, none), (.lookupRaw, j, some 3), (.update, j, some 3),
          (.lookupRaw, l, some 3), (.update, l, some 3),
          (.insert, k, some 3), (.insert, l, some 3)] ∧
      ∃ calls : CommitCalls, left.shared.stored.log = calls.all ∧
        calls.Disciplined txn left.txn left.answer := by
  intro j k l read both records txn left
  have hspec := @commit_calls_disciplined Records (Engine.memory MergeOperator.replace.tuple) txn
    ((leavesLocks_memory MergeOperator.replace.tuple).sparesLocksOf 3) rfl [] records
    LockTable.empty
  exact ⟨by decide +kernel, by decide +kernel, hspec.1⟩

end StampStore
