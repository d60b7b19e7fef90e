-- Counters that transactions only add to. Deltas of one transaction are added up
-- in its buffer, and the sum is added to the stored counter when it commits. So
-- the counter is the sum of the deltas of all transactions that have committed,
-- and there is none while there are no such deltas.
import StampStore.Proofs.MessageOrder
import Mathlib.Algebra.GroupWithZero.Nat

namespace StampStore

/-! ## Adding up -/

namespace Counter

/-- The counter that deltas add up to, if there are any; it wraps around. -/
def ofDeltas (deltas : List Bytes) : Option Bytes :=
  if deltas = [] then none
  else some (encode (UInt64.ofNat (deltas.map Bytes.ofLittleEndian).sum))

theorem decode_of_length {bs : Bytes} (h : bs.length = size) :
    decode bs = some (UInt64.ofNat (Bytes.ofLittleEndian bs)) := by
  unfold decode
  rw [if_pos h]

/-- The sum of no deltas counts as zero for the next one. -/
theorem decode_ofDeltas (deltas : List Bytes) :
    (ofDeltas deltas).elim (some 0) decode =
      some (UInt64.ofNat (deltas.map Bytes.ofLittleEndian).sum) := by
  unfold ofDeltas
  by_cases hnone : deltas = []
  · subst hnone
    rfl
  · rw [if_neg hnone, Option.elim_some, decode_encode]

/-- One delta more. -/
theorem effect_ofDeltas (key : Key) (deltas : List Bytes) {delta : Bytes}
    (h : delta.length = size) :
    (Message.update delta).effect .counter key (ofDeltas deltas) =
      .ok (ofDeltas (deltas ++ [delta])) := by
  have hadd : add key (ofDeltas deltas) delta =
      .ok (encode (UInt64.ofNat (deltas.map Bytes.ofLittleEndian).sum +
        UInt64.ofNat (Bytes.ofLittleEndian delta))) :=
    add_eq_ok_iff.mpr ⟨_, _, decode_ofDeltas deltas, decode_of_length h, rfl⟩
  have hsum : ofDeltas (deltas ++ [delta]) =
      some (encode (UInt64.ofNat (deltas.map Bytes.ofLittleEndian).sum +
        UInt64.ofNat (Bytes.ofLittleEndian delta))) := by
    unfold ofDeltas
    rw [if_neg (by simp), List.map_append, List.sum_append, UInt64.ofNat_add]
    rfl
  change (add key (ofDeltas deltas) delta).map some = _
  rw [hadd, hsum]
  rfl

/-- Messages that are deltas add up. -/
theorem applyEach_ofDeltas (key : Key) (old : List Bytes) {deltas : List Bytes}
    (h : ∀ delta ∈ deltas, delta.length = size) :
    Message.applyEach .counter key (ofDeltas old) (deltas.map .update) =
      .ok (ofDeltas (old ++ deltas)) := by
  induction deltas generalizing old with
  | nil => rw [List.append_nil, List.map_nil, Message.applyEach]
  | cons delta deltas ih =>
    rw [List.map_cons, Message.applyEach, effect_ofDeltas key old (h delta List.mem_cons_self)]
    simp only
    rw [ih (old ++ [delta]) fun d hd => h d (List.mem_cons_of_mem delta hd), List.append_assoc,
      List.singleton_append]

/-- The sum is written in eight bytes, as what is left of it modulo `2 ^ 64`. -/
theorem ofDeltas_spec {deltas : List Bytes} (h : deltas ≠ []) :
    ∃ value, ofDeltas deltas = some value ∧ value.length = size ∧
      Bytes.ofLittleEndian value = (deltas.map Bytes.ofLittleEndian).sum % UInt64.size := by
  refine ⟨_, if_neg h, length_encode _, ?_⟩
  rw [encode, Bytes.ofLittleEndian_littleEndian, UInt64.toNat_ofNat']
  exact Nat.mod_mod _ _

end Counter

/-! ## The deltas of committed transactions -/

/-- The delta that a request adds to `key`. -/
def Request.delta? (key : Key) : Request → Option Bytes
  | .write k (.update delta) => if k = key then some delta else none
  | _ => none

/-- The deltas to `key` of the transactions that have committed. -/
def Session.committedDeltas (s : Session) (key : Key) : List Bytes :=
  s.commits.flatMap fun c => (s.requestsOf c.1).filterMap (Request.delta? key)

/-- The request writes nothing but deltas that are counters. -/
def Request.Counts : Request → Prop
  | .lookup _ => True
  | .write _ message => ∃ delta, message = .update delta ∧ delta.length = Counter.size

/-- The call writes nothing but deltas that are counters. -/
def Call.Counts : Call → Prop
  | .ask _ request => request.Counts
  | _ => True

theorem Call.Counts.keepsKeys {call : Call} (h : call.Counts) : call.keepsKeys := by
  cases call with
  | ask n request =>
    cases request with
    | lookup key => trivial
    | write key message =>
      obtain ⟨delta, rfl, -⟩ := h
      simp [Call.keepsKeys]
  | _ => trivial

/-- What was asked only counts, and no write was refused. -/
def Exchange.Counted (exchange : Exchange) : Prop :=
  exchange.request.Counts ∧
    ∀ key message, exchange.request = .write key message → exchange.answer = .done (.ok ())

theorem Exchange.Counted.message? {exchange : Exchange} (h : exchange.Counted) (key : Key) :
    exchange.message? key = (exchange.request.delta? key).map .update := by
  obtain ⟨request, answer⟩ := exchange
  cases request with
  | lookup k => rfl
  | write k message =>
    obtain ⟨⟨delta, rfl, -⟩, hanswer⟩ := h
    obtain rfl : answer = .done (.ok ()) := hanswer k _ rfl
    by_cases hk : k = key <;> simp [Exchange.message?, Request.delta?, hk]

/-- The accepted messages of a client that only counts are its deltas. -/
theorem Client.messages_of_counted {client : Client} (h : ∀ e ∈ client.log, e.Counted)
    (key : Key) :
    client.messages key = (client.requests.filterMap (Request.delta? key)).map .update := by
  unfold Client.messages Client.requests
  rw [List.filterMap_map, List.map_filterMap]
  exact List.filterMap_congr fun e he => (h e he).message? key

theorem Client.delta_length {client : Client} (h : ∀ e ∈ client.log, e.Counted) {key : Key}
    {delta : Bytes} (hdelta : delta ∈ client.requests.filterMap (Request.delta? key)) :
    delta.length = Counter.size := by
  obtain ⟨request, hrequest, hmine⟩ := List.mem_filterMap.mp hdelta
  obtain ⟨e, he, rfl⟩ := List.mem_map.mp hrequest
  have hcounts := (h e he).1
  unfold Request.delta? at hmine
  split at hmine
  · rename_i k d hwrite
    rw [hwrite] at hcounts
    obtain ⟨d', hd', hlen⟩ := hcounts
    cases hd'
    split at hmine
    · cases hmine
      exact hlen
    · cases hmine
  · cases hmine

/-! ## The invariant of a run -/

variable {db : Database Records} {s s' : Session} {call : Call} {good : Bytes → Prop}

namespace Session

/-- A call leaves all values and the list of commits as they are, or it is a commit that goes
through and installs what its client has buffered. -/
theorem Step.values_cases (h : Step db s call s') (hclosed : db.merge.Closed good)
    (hs : s.Stamped good) :
    (s'.commits = s.commits ∧ s'.records.value? = s.records.value?) ∨
      ∃ n client ts, s.clients[n]? = some client ∧ client.txn.isActive = true ∧
        s'.commits = s.commits ++ [(n, ts)] ∧ s'.logOf n = client.log ∧
        s'.records.value? = client.txn.writes.onto db.merge s.records.value? := by
  have hkeep : ∀ {state : State Records} {clients : List Client},
      state.shared = s.state.shared →
      (Session.mk state clients s.commits).records.value? = s.records.value? := by
    intro state clients hshared
    unfold records
    rw [hshared]
  cases h with
  | begun hshared => exact Or.inl ⟨rfl, hkeep hshared⟩
  | idle => exact Or.inl ⟨rfl, rfl⟩
  | looked => exact Or.inl ⟨rfl, rfl⟩
  | refused => exact Or.inl ⟨rfl, rfl⟩
  | wrote => exact Or.inl ⟨rfl, rfl⟩
  | aborted _ _ hshared => exact Or.inl ⟨rfl, hkeep hshared⟩
  | @committed n client state held answer decided after hclient hactive _ hrun hshared =>
    have hmergeable := hs.mergeable client (List.mem_of_getElem? hclient)
    obtain ⟨outcome, rfl⟩ := outcome_of_mergeable hclosed hmergeable hs.values hrun
    have hafter : ∀ {clients : List Client} {commits : List (Nat × Timestamp)},
        (Session.mk state clients commits).records = after := congrArg Shared.stored hshared
    cases outcome with
    | aborted reason =>
      refine Or.inl ⟨List.append_nil _, funext fun key => ?_⟩
      rw [hafter]
      exact (aborted_frame hrun key).1
    | committed ts =>
      refine Or.inr ⟨n, client, ts, hclient, hactive, rfl, ?_, funext fun key => ?_⟩
      · unfold Session.logOf
        simp only
        rw [getElem?_set_some hclient, if_pos rfl]
      · rw [hafter]
        exact value?_committed hrun key

/-- All writes of a run under the counter operator are deltas, none was refused, and every counter
is the sum of the deltas that were committed. -/
structure Counted (s : Session) : Prop where
  stamped : s.Stamped fun value => value.length = Counter.size
  orderly : s.Orderly
  kept : s.NoRemovals
  faithful : s.Faithful .counter fun value => value.length = Counter.size
  logs : ∀ client ∈ s.clients, ∀ exchange ∈ client.log, exchange.Counted
  totals : ∀ key, s.records.value? key = Counter.ofDeltas (s.committedDeltas key)

theorem counted_start {state : State Records}
    (h : state.shared = ⟨KeyMap.empty, LockTable.empty⟩) : (start state).Counted where
  stamped := stamped_start _ h
  orderly := orderly_start state
  kept := noRemovals_start state
  faithful := faithful_start _ _ state
  logs := fun _ hclient => absurd hclient List.not_mem_nil
  totals := fun key => by
    rw [show (start state).records = KeyMap.empty from congrArg Shared.stored h]
    rfl

/-- A counter delta is not refused by a buffer of deltas. -/
theorem Counted.not_refused (hs : s.Counted) {client : Client} (hclient : client ∈ s.clients)
    (hactive : client.txn.isActive = true) {key : Key} {message : Message}
    (hcounts : (Request.write key message).Counts) {failure : Failure} :
    client.txn.write .counter key message ≠ .error failure := by
  intro hrefused
  obtain ⟨delta, rfl, hlen⟩ := hcounts
  rcases refusal_of_mergeable MergeOperator.closed_counter hactive
      (hs.stamped.mergeable client hclient) hrefused with
    ⟨e, hcheck, -⟩ | ⟨-, entry, -, hfind, hop, -⟩
  · obtain ⟨n, hread⟩ := Counter.read_of_length hlen key .operand
    simp [Transaction.checkPayload, MergeOperator.counter, hread, Except.map] at hcheck
  · exact hs.kept client hclient entry (List.mem_of_find?_eq_some hfind) hop

theorem Step.logs_counted (h : Step db s call s') (hmerge : db.merge = .counter)
    (hcall : call.Counts) (hs : s.Counted) :
    ∀ client ∈ s'.clients, ∀ exchange ∈ client.log, exchange.Counted := by
  refine h.forall_said hs.logs ?_
  rintro n client exchange rfl hmem hactive hsaid
  cases hsaid with
  | found key => exact ⟨trivial, fun _ _ hwrite => by cases hwrite⟩
  | refused hwrite =>
    rw [hmerge] at hwrite
    exact absurd hwrite (hs.not_refused hmem hactive hcall)
  | wrote => exact ⟨hcall, fun _ _ _ => rfl⟩

/-- What committed transactions have added stays, and a new commit adds what its client has asked
for. -/
theorem Step.committedDeltas (h : Step db s call s') (ho : s.Orderly)
    {new : List (Nat × Timestamp)} (hcommits : s'.commits = s.commits ++ new) (key : Key) :
    s'.committedDeltas key = s.committedDeltas key ++
      new.flatMap fun c => (s'.requestsOf c.1).filterMap (Request.delta? key) := by
  unfold Session.committedDeltas
  rw [hcommits, List.flatMap_append]
  congr 1
  refine List.flatMap_congr fun c hc => ?_
  unfold requestsOf
  rw [h.logOf ho hc]

/-- A call keeps every counter the sum of its committed deltas: a commit adds those of its client
to both. -/
theorem Step.totals (h : Step db s call s') (hmerge : db.merge = .counter) (hs : s.Counted)
    (key : Key) : s'.records.value? key = Counter.ofDeltas (s'.committedDeltas key) := by
  have hclosed : db.merge.Closed fun value => value.length = Counter.size :=
    hmerge ▸ MergeOperator.closed_counter
  rcases h.values_cases hclosed hs.stamped with
    ⟨hcommits, hvalues⟩ | ⟨n, client, ts, hclient, hactive, hcommits, hlog, hvalues⟩
  · have hsame := h.committedDeltas hs.orderly (hcommits.trans (List.append_nil _).symm) key
    rw [hvalues, hs.totals, hsame, List.flatMap_nil, List.append_nil]
  · have hmem := List.mem_of_getElem? hclient
    have hlogs := hs.logs client hmem
    have hrequests : s'.requestsOf n = client.requests := congrArg _ hlog
    -- the buffer adds to the counter what its client has asked for
    have hview := hs.faithful client hmem hactive key _ (hs.stamped.values key)
    rw [Client.messages_of_counted hlogs, hs.totals, Counter.applyEach_ofDeltas key _
      fun delta => Client.delta_length hlogs] at hview
    rw [hvalues, WriteBuffer.onto, hmerge, hs.totals, hview,
      h.committedDeltas hs.orderly hcommits key, List.flatMap_singleton, hrequests]

theorem Step.counted (h : Step db s call s') (hmerge : db.merge = .counter) (hcall : call.Counts)
    (hs : s.Counted) : s'.Counted where
  stamped := h.stamped (hmerge ▸ MergeOperator.closed_counter) hs.stamped
  orderly := h.orderly hs.orderly
  kept := h.noRemovals hcall.keepsKeys hs.kept
  faithful := by
    rw [← hmerge]
    exact h.faithful (hmerge ▸ MergeOperator.closed_counter) (hmerge ▸ MergeOperator.folds_counter)
      hs.stamped.mergeable (hmerge ▸ hs.faithful)
  logs := h.logs_counted hmerge hcall hs
  totals := h.totals hmerge hs

end Session

/-- Transactions of any levels that only add to counters, in any order of their calls, on a store in
memory under the counter operator. After every call a key is absent if no committed transaction has
added to it, and otherwise holds the sum modulo `2 ^ 64` of all deltas that the committed ones have
sent to it. -/
theorem counter_is_the_sum_of_the_committed_deltas {config : Config} {state : State Records}
    (hopen : Database.openMemoryWith .counter config = .ok (db, state)) {calls : List Call}
    (hcalls : ∀ call ∈ calls, call.Counts) (key : Key) :
    let s := (Session.start state).run db calls
    let deltas := s.committedDeltas key
    (deltas = [] → s.records.get? key = none) ∧
      (deltas ≠ [] → ∃ value, s.records.value? key = some value ∧ value.length = Counter.size ∧
        Bytes.ofLittleEndian value = (deltas.map Bytes.ofLittleEndian).sum % UInt64.size) := by
  intro s deltas
  obtain ⟨hdb, hmerge, hshared⟩ := openMemoryWith_spec hopen
  have hstart := Session.counted_start hshared
  have hs : s.Counted := Session.run_invariant hdb hstart.stamped.quiet hstart
    fun hmem hstep => hstep.counted hmerge (hcalls _ hmem)
  have htotal : s.records.value? key = Counter.ofDeltas deltas := hs.totals key
  refine ⟨fun hnone => ?_, fun hsome => ?_⟩
  · rw [hnone] at htotal
    rw [hs.stamped.quiet.sound.get?_eq, Option.map_eq_none_iff.mp htotal]
    rfl
  · rw [htotal]
    exact Counter.ofDeltas_spec hsome

/-- Additions at all levels, one of them past the end of the range; what an aborted transaction and a
refused one have added does not count. -/
theorem counter_wraps_around_and_forgets_aborted_deltas :
    let k : Key := ⟨[107]⟩
    let l : Key := ⟨[108]⟩
    let add (n : Nat) (key : Key) (delta : UInt64) : Call :=
      .ask n (.write key (.update (Counter.encode delta)))
    let calls : List Call := [.begin .serializable, add 0 k 2, add 0 k 3, .commit 0,
      .begin .snapshot, .ask 1 (.lookup k), add 1 k (UInt64.ofNat (UInt64.size - 1)),
      .begin .repeatableRead, add 2 k 100, .abort 2,
      .begin .serializable, .ask 3 (.lookup k), add 3 k 100, add 3 l 100, .commit 1, .commit 3]
    let s := (Session.start State.standard).run (Database.under .counter) calls
    s.commits.map (·.1) = [0, 1] ∧ s.records.get? l = none ∧
      ∃ value, s.records.value? k = some value ∧ value.length = Counter.size ∧
        Bytes.ofLittleEndian value = 4 := by
  intro k l add calls s
  have hcalls : ∀ call ∈ calls, call.Counts := by
    simp [calls, add, Call.Counts, Request.Counts]
  have hk : s.committedDeltas k =
      [Counter.encode 2, Counter.encode 3, Counter.encode (UInt64.ofNat (UInt64.size - 1))] := by
    decide +kernel
  have hl : s.committedDeltas l = [] := by decide +kernel
  obtain ⟨-, hcounter⟩ :=
    counter_is_the_sum_of_the_committed_deltas (openMemoryWith_under .counter) hcalls k
  obtain ⟨habsent, -⟩ :=
    counter_is_the_sum_of_the_committed_deltas (openMemoryWith_under .counter) hcalls l
  obtain ⟨value, hvalue, hlen, hsum⟩ := hcounter (by rw [hk]; exact List.cons_ne_nil _ _)
  refine ⟨by decide +kernel, habsent hl, value, hvalue, hlen, hsum.trans ?_⟩
  rw [hk]
  decide +kernel

end StampStore
