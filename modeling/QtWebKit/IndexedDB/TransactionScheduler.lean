import Mathlib

/-! # Scheduling the transactions of a database

The transactions that have not started wait in a queue. Each firing of the timer starts the
first one of them that conflicts with none in progress and shares no object store with a
read-write one ahead of it. Version change transactions, which never enter the queue and have
an empty scope, are left out. -/

namespace QtWebKit.IndexedDB

open List

inductive TransactionMode
  | readOnly
  | readWrite
  | versionChange
  deriving DecidableEq

/-- A transaction that `enqueueTransaction` takes. Its scope is made from the object stores of
the database, each of which has an identifier of its own. -/
structure UniqueIDBDatabaseTransaction where
  identifier : Nat
  mode : TransactionMode
  objectStoreIdentifiers : List Nat
  mode_ne : mode ≠ .versionChange
  nodup : objectStoreIdentifiers.Nodup

abbrev Transactions := List UniqueIDBDatabaseTransaction

/-- The transactions in progress are those of a map from identifiers. -/
structure UniqueIDBDatabase where
  backingStoreSupportsSimultaneousTransactions : Bool
  pendingTransactions : Transactions
  inProgressTransactions : Transactions
  objectStoreTransactionCounts : Multiset Nat
  objectStoreWriteTransactions : Finset Nat

def scopesOverlap {T : Type} [Membership Nat T] (aScopes : T) [DecidablePred (· ∈ aScopes)]
    (bScopes : List Nat) : Bool :=
  bScopes.any fun scope => scope ∈ aScopes

namespace UniqueIDBDatabase

variable (db : UniqueIDBDatabase)

def create (backingStoreSupportsSimultaneousTransactions : Bool) : UniqueIDBDatabase :=
  ⟨backingStoreSupportsSimultaneousTransactions, [], [], 0, ∅⟩

def enqueueTransaction (transaction : UniqueIDBDatabaseTransaction) : UniqueIDBDatabase :=
  { db with pendingTransactions := db.pendingTransactions ++ [transaction] }

/-- The loop of `takeNextRunnableTransaction`: the transaction that can be run, the deferred
ones and the rest of the queue. -/
def nextRunnable : Transactions → Transactions → Finset Nat →
    Option UniqueIDBDatabaseTransaction × Transactions × Transactions
  | [], deferred, _ => (none, deferred, [])
  | current :: pending, deferred, deferredReadWriteScopes =>
    match current.mode with
    | .readOnly =>
      if scopesOverlap deferredReadWriteScopes current.objectStoreIdentifiers ||
          scopesOverlap db.objectStoreWriteTransactions current.objectStoreIdentifiers then
        nextRunnable pending (deferred ++ [current]) deferredReadWriteScopes
      else (some current, deferred, pending)
    | .readWrite =>
      if scopesOverlap db.objectStoreTransactionCounts current.objectStoreIdentifiers ||
          scopesOverlap deferredReadWriteScopes current.objectStoreIdentifiers then
        nextRunnable pending (deferred ++ [current])
          (deferredReadWriteScopes ∪ current.objectStoreIdentifiers.toFinset)
      else (some current, deferred, pending)
    | .versionChange => (none, deferred, pending) -- not reached

/-- The transaction to start, whether others had to be deferred, and the new queue. -/
def takeNextRunnableTransaction : Option UniqueIDBDatabaseTransaction × Bool × Transactions :=
  if !db.backingStoreSupportsSimultaneousTransactions && !db.inProgressTransactions.isEmpty then
    (none, false, db.pendingTransactions)
  else
    let next := db.nextRunnable db.pendingTransactions [] ∅
    (next.1, !next.2.1.isEmpty, next.2.1 ++ next.2.2)

/-- `HashCountedSet::add` and `remove` for each store of a scope add and subtract multisets. -/
def operationAndTransactionTimerFired : UniqueIDBDatabase :=
  let waiting := { db with pendingTransactions := db.takeNextRunnableTransaction.2.2 }
  match db.takeNextRunnableTransaction.1 with
  | none => waiting
  | some transaction =>
    { waiting with
      inProgressTransactions := transaction ::
        db.inProgressTransactions.eraseP (·.identifier = transaction.identifier)
      objectStoreTransactionCounts :=
        transaction.objectStoreIdentifiers + db.objectStoreTransactionCounts
      objectStoreWriteTransactions :=
        if transaction.mode = .readOnly then db.objectStoreWriteTransactions
        else db.objectStoreWriteTransactions ∪ transaction.objectStoreIdentifiers.toFinset }

def inProgressTransactionCompleted (identifier : Nat) : UniqueIDBDatabase :=
  match db.inProgressTransactions.find? (·.identifier = identifier) with
  | none => db
  | some transaction =>
    { db with
      inProgressTransactions := db.inProgressTransactions.eraseP (·.identifier = identifier)
      objectStoreTransactionCounts :=
        db.objectStoreTransactionCounts - transaction.objectStoreIdentifiers
      objectStoreWriteTransactions :=
        if transaction.mode = .readOnly then db.objectStoreWriteTransactions
        else db.objectStoreWriteTransactions \ transaction.objectStoreIdentifiers.toFinset }

/-- The databases that enqueueing, timer firings and completions lead to, with the transactions
enqueued so far. Each transaction has an identifier of its own. -/
inductive Reachable : Transactions → UniqueIDBDatabase → Prop
  | create (simultaneous : Bool) : Reachable [] (create simultaneous)
  | enqueue {created db} (h : Reachable created db) (transaction : UniqueIDBDatabaseTransaction)
      (hnew : ∀ other ∈ created, other.identifier ≠ transaction.identifier) :
      Reachable (created ++ [transaction]) (db.enqueueTransaction transaction)
  | timerFired {created db} (h : Reachable created db) :
      Reachable created db.operationAndTransactionTimerFired
  | completed {created db} (h : Reachable created db) {transaction : UniqueIDBDatabaseTransaction}
      (hrunning : transaction ∈ db.inProgressTransactions) :
      Reachable created (db.inProgressTransactionCompleted transaction.identifier)

/-- The scopes have an object store in common. -/
def Shares (a b : UniqueIDBDatabaseTransaction) : Prop :=
  ∃ store ∈ a.objectStoreIdentifiers, store ∈ b.objectStoreIdentifiers

/-- One of two transactions writes to a store that both have in their scope. -/
def Conflicts (a b : UniqueIDBDatabaseTransaction) : Prop :=
  Shares a b ∧ (a.mode = .readWrite ∨ b.mode = .readWrite)

theorem Conflicts.symm {a b} (h : Conflicts a b) : Conflicts b a := by
  obtain ⟨⟨store, ha, hb⟩, hm⟩ := h
  exact ⟨⟨store, hb, ha⟩, hm.symm⟩

/-- The store is in the scope of a read-write transaction. -/
def WrittenBy (transactions : Transactions) (store : Nat) : Prop :=
  ∃ transaction ∈ transactions,
    transaction.mode = .readWrite ∧ store ∈ transaction.objectStoreIdentifiers

/-- A transaction waits for those in progress that it conflicts with and for the read-write
ones ahead of it in the queue that it shares a store with. -/
def Blocked (ahead : Transactions) (transaction : UniqueIDBDatabaseTransaction) : Prop :=
  (∃ other ∈ db.inProgressTransactions, Conflicts other transaction) ∨
    ∃ other ∈ ahead, other.mode = .readWrite ∧ Shares other transaction

/-- Each of the transactions behind `ahead` is blocked. -/
def AllBlocked : Transactions → Transactions → Prop
  | _, [] => True
  | ahead, transaction :: rest =>
    db.Blocked ahead transaction ∧ AllBlocked (ahead ++ [transaction]) rest

/-- What every step of the scheduler keeps. -/
structure Consistent (created : Transactions) (db : UniqueIDBDatabase) : Prop where
  nodup : (created.map (·.identifier)).Nodup
  queue : db.pendingTransactions.Sublist created
  started : ∀ transaction ∈ db.inProgressTransactions,
    transaction ∈ created ∧ transaction ∉ db.pendingTransactions
  counts : db.objectStoreTransactionCounts =
    db.inProgressTransactions.flatMap (·.objectStoreIdentifiers)
  writes : ∀ store, store ∈ db.objectStoreWriteTransactions ↔
    WrittenBy db.inProgressTransactions store
  exclusive : db.inProgressTransactions.Pairwise fun a b => ¬ Conflicts a b

variable {db} {created ahead blocked rest : Transactions} {scopes : Finset Nat}
  {txn : UniqueIDBDatabaseTransaction}

theorem scopesOverlap_iff (h : ∀ store, store ∈ scopes ↔ WrittenBy ahead store)
    (txn : UniqueIDBDatabaseTransaction) :
    scopesOverlap scopes txn.objectStoreIdentifiers = true ↔
      ∃ oth ∈ ahead, oth.mode = .readWrite ∧ Shares oth txn := by
  simp only [scopesOverlap, any_eq_true, decide_eq_true_eq, h, WrittenBy, Shares]
  constructor
  · rintro ⟨store, hs, oth, ho, hm, hso⟩
    exact ⟨oth, ho, hm, store, hso, hs⟩
  · rintro ⟨oth, ho, hm, store, hso, hs⟩
    exact ⟨store, hs, oth, ho, hm, hso⟩

theorem writtenBy_append {front back : Transactions} {store} :
    WrittenBy (front ++ back) store ↔ WrittenBy front store ∨ WrittenBy back store := by
  simp only [WrittenBy, mem_append, or_and_right, exists_or]

theorem writtenBy_cons {store} : WrittenBy (txn :: rest) store ↔
    (txn.mode = .readWrite ∧ store ∈ txn.objectStoreIdentifiers) ∨ WrittenBy rest store := by
  simp only [WrittenBy, exists_mem_cons_iff]

/-- A reader waits for writers only. -/
theorem blocked_iff_of_readOnly (hm : txn.mode = .readOnly) : db.Blocked ahead txn ↔
    (∃ oth ∈ ahead, oth.mode = .readWrite ∧ Shares oth txn) ∨
      ∃ oth ∈ db.inProgressTransactions, oth.mode = .readWrite ∧ Shares oth txn := by
  simp only [Blocked, Conflicts, hm, reduceCtorEq, or_false]
  rw [or_comm]
  simp only [and_comm]

/-- A writer waits for everything in progress that it shares a store with. -/
theorem blocked_iff_of_readWrite (hm : txn.mode = .readWrite) : db.Blocked ahead txn ↔
    (∃ oth ∈ db.inProgressTransactions, Shares oth txn) ∨
      ∃ oth ∈ ahead, oth.mode = .readWrite ∧ Shares oth txn := by
  simp only [Blocked, Conflicts, hm, or_true, and_true]

section

variable (h : db.Consistent created)
include h

theorem scopesOverlap_counts_iff (txn : UniqueIDBDatabaseTransaction) :
    scopesOverlap db.objectStoreTransactionCounts txn.objectStoreIdentifiers = true ↔
      ∃ oth ∈ db.inProgressTransactions, Shares oth txn := by
  simp only [scopesOverlap, h.counts, any_eq_true, decide_eq_true_eq, Multiset.mem_coe,
    mem_flatMap, Shares]
  constructor
  · rintro ⟨store, hs, oth, ho, hso⟩
    exact ⟨oth, ho, store, hso, hs⟩
  · rintro ⟨oth, ho, store, hso, hs⟩
    exact ⟨store, hs, oth, ho, hso⟩

/-- One round of the loop. -/
theorem nextRunnable_cons (hs : ∀ store, store ∈ scopes ↔ WrittenBy ahead store) :
    (db.Blocked ahead txn → ∃ scopes',
      (∀ store, store ∈ scopes' ↔ WrittenBy (ahead ++ [txn]) store) ∧
      db.nextRunnable (txn :: rest) ahead scopes =
        db.nextRunnable rest (ahead ++ [txn]) scopes') ∧ (¬ db.Blocked ahead txn →
      db.nextRunnable (txn :: rest) ahead scopes = (some txn, ahead, rest)) := by
  have hnn (store) : ¬ WrittenBy [] store := by simp [WrittenBy]
  rw [nextRunnable]
  cases hm : txn.mode with
  | readOnly =>
    have hif : (scopesOverlap scopes txn.objectStoreIdentifiers ||
        scopesOverlap db.objectStoreWriteTransactions txn.objectStoreIdentifiers) = true ↔
          db.Blocked ahead txn := by
      rw [Bool.or_eq_true, scopesOverlap_iff hs, scopesOverlap_iff h.writes,
        blocked_iff_of_readOnly hm]
    -- a deferred reader leaves no scope behind
    refine ⟨fun hbl => ⟨scopes, fun store => ?_, if_pos (hif.mpr hbl)⟩,
      fun hfr => if_neg (hif.not.mpr hfr)⟩
    simp [writtenBy_append, writtenBy_cons, hm, hs, hnn]
  | readWrite =>
    have hif : (scopesOverlap db.objectStoreTransactionCounts txn.objectStoreIdentifiers ||
        scopesOverlap scopes txn.objectStoreIdentifiers) = true ↔ db.Blocked ahead txn := by
      rw [Bool.or_eq_true, scopesOverlap_iff hs, scopesOverlap_counts_iff h,
        blocked_iff_of_readWrite hm]
    refine ⟨fun hbl => ⟨_, fun store => ?_, if_pos (hif.mpr hbl)⟩,
      fun hfr => if_neg (hif.not.mpr hfr)⟩
    simp [writtenBy_append, writtenBy_cons, hm, hs, hnn]
  | versionChange => exact absurd hm txn.mode_ne

/-- The loop goes past the blocked transactions. -/
theorem nextRunnable_eq (hs : ∀ store, store ∈ scopes ↔ WrittenBy ahead store)
    (hbl : db.AllBlocked ahead blocked)
    (hfr : ∀ txn ∈ rest.head?, ¬ db.Blocked (ahead ++ blocked) txn) :
    db.nextRunnable (blocked ++ rest) ahead scopes =
      (rest.head?, ahead ++ blocked, rest.tail) := by
  induction blocked generalizing ahead scopes with
  | nil =>
    rw [append_nil] at hfr ⊢
    cases rest with
    | nil => rfl
    | cons first rest => exact (nextRunnable_cons h hs).2 (hfr first rfl)
  | cons first blocked ih =>
    obtain ⟨scopes', hs', hf⟩ := (nextRunnable_cons h hs).1 hbl.1
    rw [append_cons] at hfr ⊢
    rw [cons_append, hf]
    exact ih hs' hbl.2 hfr

omit h in
theorem exists_blocked (db : UniqueIDBDatabase) (ahead pending : Transactions) :
    ∃ blocked rest, pending = blocked ++ rest ∧ db.AllBlocked ahead blocked ∧
      ∀ txn ∈ rest.head?, ¬ db.Blocked (ahead ++ blocked) txn := by
  induction pending generalizing ahead with
  | nil => exact ⟨[], [], rfl, trivial, by simp⟩
  | cons first pending ih =>
    by_cases hf : db.Blocked ahead first
    · obtain ⟨blocked, rest, rfl, hbl, hfr⟩ := ih (ahead ++ [first])
      exact ⟨first :: blocked, rest, rfl, ⟨hf, hbl⟩, by rwa [append_cons]⟩
    · exact ⟨[], first :: pending, rfl, trivial, by simpa using hf⟩

/-- A backing store for one transaction at a time has none in progress. -/
def Ready (db : UniqueIDBDatabase) : Prop :=
  db.backingStoreSupportsSimultaneousTransactions = true ∨ db.inProgressTransactions = []

theorem takeNextRunnableTransaction_eq (hr : db.Ready)
    (hp : db.pendingTransactions = blocked ++ rest) (hbl : db.AllBlocked [] blocked)
    (hfr : ∀ txn ∈ rest.head?, ¬ db.Blocked blocked txn) :
    db.takeNextRunnableTransaction = (rest.head?, !blocked.isEmpty, blocked ++ rest.tail) := by
  have hnn (store) : store ∈ (∅ : Finset Nat) ↔ WrittenBy [] store := by simp [WrittenBy]
  rw [takeNextRunnableTransaction, if_neg (by rcases hr with h | h <;> simp [h]), hp,
    nextRunnable_eq h hnn hbl hfr]
  rfl

omit h in
theorem takeNextRunnableTransaction_of_not_ready (hr : ¬ db.Ready) :
    db.takeNextRunnableTransaction = (none, false, db.pendingTransactions) := by
  rw [takeNextRunnableTransaction, if_pos (by simpa [Ready] using hr)]

end

theorem consistent_enqueueTransaction (h : db.Consistent created)
    (hnw : ∀ oth ∈ created, oth.identifier ≠ txn.identifier) :
    (db.enqueueTransaction txn).Consistent (created ++ [txn]) where
  nodup := by
    have hnd := h.nodup
    grind
  queue := h.queue.append (List.Sublist.refl _)
  started := by
    have hst := h.started
    grind [enqueueTransaction]
  counts := h.counts
  writes := h.writes
  exclusive := h.exclusive

/-- A transaction of the queue has an identifier that none in progress has. -/
theorem eraseP_inProgressTransactions (h : db.Consistent created)
    (hw : txn ∈ db.pendingTransactions) :
    db.inProgressTransactions.eraseP (·.identifier = txn.identifier) =
      db.inProgressTransactions := by
  apply eraseP_of_forall_not
  intro oth ho hsm
  have heq : oth = txn := inj_on_of_nodup_map h.nodup (h.started oth ho).1
    (h.queue.subset hw) (by simpa using hsm)
  exact (h.started oth ho).2 (heq ▸ hw)

theorem consistent_timerFired (h : db.Consistent created) :
    db.operationAndTransactionTimerFired.Consistent created := by
  rw [operationAndTransactionTimerFired]
  by_cases hr : db.Ready
  swap
  · rw [takeNextRunnableTransaction_of_not_ready hr]
    exact h
  obtain ⟨blocked, rest, hp, hbl, hfr⟩ := exists_blocked db [] db.pendingTransactions
  rw [takeNextRunnableTransaction_eq h hr hp hbl hfr]
  have hq := h.queue
  have hst := h.started
  rw [hp] at hq hst
  cases rest with
  | nil => exact ⟨h.nodup, hq, hst, h.counts, h.writes, h.exclusive⟩
  | cons first rest =>
    have hf : first ∈ db.pendingTransactions := by simp [hp]
    have hsb : (blocked ++ rest).Sublist (blocked ++ first :: rest) :=
      (List.Sublist.refl blocked).append (sublist_cons_self _ _)
    simp only [head?_cons, tail_cons, eraseP_inProgressTransactions h hf]
    refine ⟨h.nodup, hsb.trans hq, ?_, ?_, fun store => ?_, ?_⟩
    · rw [forall_mem_cons]
      refine ⟨⟨h.queue.subset hf, fun hm => ?_⟩, fun txn ht =>
        ⟨(hst txn ht).1, fun hm => (hst txn ht).2 (hsb.subset hm)⟩⟩
      -- the started transaction was in the queue once
      have hnd := hq.nodup h.nodup.of_map
      rw [nodup_middle, nodup_cons] at hnd
      exact hnd.1 hm
    · simp [h.counts]
    · have hw := h.writes store
      rw [writtenBy_cons]
      cases hm : first.mode with
      | readOnly => simpa using hw
      | readWrite => simp [hw, or_comm]
      | versionChange => exact absurd hm first.mode_ne
    · rw [pairwise_cons]
      exact ⟨fun oth ho hc =>
        hfr first rfl (.inl ⟨oth, ho, hc.symm⟩), h.exclusive⟩

/-- No transaction in progress beside a writer writes to a store of it. -/
theorem not_writtenBy_of_exclusive {others : Transactions} (hm : txn.mode = .readWrite)
    (he : ∀ oth ∈ others, ¬ Conflicts txn oth) {store} (hs : store ∈ txn.objectStoreIdentifiers) :
    ¬ WrittenBy others store := by
  rintro ⟨oth, ho, -, hso⟩
  exact he oth ho ⟨⟨store, hs, hso⟩, .inl hm⟩

theorem consistent_completed (h : db.Consistent created) (hrn : txn ∈ db.inProgressTransactions) :
    (db.inProgressTransactionCompleted txn.identifier).Consistent created := by
  obtain ⟨completed, front, back, hfront, hid, hsp, her⟩ :=
    exists_of_eraseP (p := (·.identifier = txn.identifier)) hrn (by simp)
  have hfn : db.inProgressTransactions.find? (·.identifier = txn.identifier) =
      some completed := by
    have hno : front.find? (·.identifier = txn.identifier) = none :=
      find?_eq_none.mpr hfront
    rw [hsp, find?_append, hno, Option.none_or]
    exact find?_cons_of_pos hid
  obtain ⟨hnd, hq, hst, hct, hw, he⟩ := h
  rw [hsp] at hst hct hw he
  rw [pairwise_middle fun hab hba => hab hba.symm, pairwise_cons] at he
  rw [inProgressTransactionCompleted, hfn]
  simp only [her]
  refine ⟨hnd, hq, fun oth ho => hst oth ?_, ?_, fun store => ?_, he.2⟩
  · rcases mem_append.mp ho with hf | hb
    · exact mem_append_left _ hf
    · exact mem_append_right _ (mem_cons_of_mem _ hb)
  · simp only [hct]
    simp only [flatMap_append, flatMap_cons, ← Multiset.coe_add]
    rw [add_left_comm, add_tsub_cancel_left]
  · have hws : store ∈ db.objectStoreWriteTransactions ↔
        (completed.mode = .readWrite ∧ store ∈ completed.objectStoreIdentifiers) ∨
          WrittenBy (front ++ back) store := by
      rw [hw, writtenBy_append, writtenBy_cons, writtenBy_append, or_left_comm]
    cases hm : completed.mode with
    | readOnly => simpa [hm] using hws
    | readWrite =>
      have hot : store ∈ completed.objectStoreIdentifiers → ¬ WrittenBy (front ++ back) store :=
        not_writtenBy_of_exclusive hm he.1
      simp only [hm, true_and] at hws
      rw [if_neg (by simp), Finset.mem_sdiff, hws, mem_toFinset]
      tauto
    | versionChange => exact absurd hm completed.mode_ne

theorem consistent_of_reachable (h : Reachable created db) : db.Consistent created := by
  induction h with
  | create simultaneous => constructor <;> simp [create, WrittenBy]
  | enqueue h txn hnw ih => exact consistent_enqueueTransaction ih hnw
  | timerFired h ih => exact consistent_timerFired ih
  | completed h hrn ih => exact consistent_completed ih hrn

/-- No transaction in progress shares a store with another one of which one is read-write, each
store is counted once for each transaction in progress with it in its scope, and the write set
has the scopes of the read-write ones. -/
theorem exclusive_of_reachable (h : Reachable created db) :
    (db.inProgressTransactions.Pairwise fun a b => ¬ Conflicts a b) ∧ ∀ store,
      db.objectStoreTransactionCounts.count store =
        db.inProgressTransactions.countP (store ∈ ·.objectStoreIdentifiers) ∧
      (store ∈ db.objectStoreWriteTransactions ↔ WrittenBy db.inProgressTransactions store) := by
  have hcons := consistent_of_reachable h
  refine ⟨hcons.exclusive, fun store => ⟨?_, hcons.writes store⟩⟩
  rw [hcons.counts, Multiset.coe_count]
  induction db.inProgressTransactions with
  | nil => rfl
  | cons first rest ih =>
    rw [flatMap_cons, count_append, ih, first.nodup.count, countP_cons]
    simp [add_comm]

/-- A writer of store 1, a reader of both stores, and writers of store 2. -/
def sampleTransaction : Nat → UniqueIDBDatabaseTransaction
  | 0 => ⟨0, .readWrite, [1], by decide, by decide⟩
  | 1 => ⟨1, .readOnly, [1, 2], by decide, by decide⟩
  | other => ⟨other, .readWrite, [2], by decide, by decide⟩

/-- The first transaction is in progress and two more have been enqueued. -/
def sampleDatabase : UniqueIDBDatabase :=
  let started := (create true).enqueueTransaction (sampleTransaction 0)
  (started.operationAndTransactionTimerFired.enqueueTransaction
    (sampleTransaction 1)).enqueueTransaction (sampleTransaction 2)

theorem reachable_sampleDatabase :
    Reachable [sampleTransaction 0, sampleTransaction 1, sampleTransaction 2] sampleDatabase :=
  .enqueue (.enqueue (.timerFired (.enqueue (.create true) (sampleTransaction 0) (by decide)))
    (sampleTransaction 1) (by decide)) (sampleTransaction 2) (by decide)

theorem exclusive_sampleDatabase :
    sampleDatabase.inProgressTransactions = [sampleTransaction 0] ∧
      sampleDatabase.objectStoreTransactionCounts.count 1 = 1 :=
  ⟨rfl, ((exclusive_of_reachable reachable_sampleDatabase).2 1).1⟩

/-- A transaction is started when those that were enqueued before it and conflict with it have
been started and completed. -/
def StartsInOrder (created : Transactions) (db : UniqueIDBDatabase) : Prop :=
  ∀ a b, [a, b].Sublist created → Conflicts a b → db.takeNextRunnableTransaction.1 = some b →
    a ∉ db.pendingTransactions ∧ a ∉ db.inProgressTransactions

/-- The first transaction that is not blocked writes to a store of one ahead of it, which can
only be a reader. -/
def Overtakes (db : UniqueIDBDatabase) : Prop :=
  db.Ready ∧ ∃ blocked writer rest, db.pendingTransactions = blocked ++ writer :: rest ∧
    db.AllBlocked [] blocked ∧ ¬ db.Blocked blocked writer ∧ writer.mode = .readWrite ∧
    ∃ reader ∈ blocked, Shares reader writer

theorem not_sublist_swap {α : Type} {a b} {l : List α} (h : l.Nodup)
    (hab : [a, b].Sublist l) : ¬ [b, a].Sublist l := by
  induction l with
  | nil => simp at hab
  | cons first l ih =>
    rw [sublist_cons_iff] at hab ⊢
    grind

/-- The next start keeps to the order of creation exactly if no writer overtakes a reader that
waits ahead of it. -/
theorem startsInOrder_iff (h : Reachable created db) :
    db.StartsInOrder created ↔ ¬ db.Overtakes := by
  have hcons := consistent_of_reachable h
  have hqueue := hcons.queue
  constructor
  · rintro horder ⟨hready, blocked, writer, rest, hpend, hblkd, hfree, hmode, reader,
      hreader, hshares⟩
    have hnext := takeNextRunnableTransaction_eq hcons hready hpend hblkd
      (by simpa using hfree)
    rw [hpend] at hqueue
    have hpair : [reader, writer].Sublist created :=
      ((singleton_sublist.mpr hreader).append (by simp)).trans hqueue
    refine (horder reader writer hpair ⟨hshares, .inr hmode⟩ ?_).1 ?_
    · rw [hnext]
      rfl
    · simp [hpend, hreader]
  · intro hkept a b hpair hconfl hnext
    have hready : db.Ready := by
      by_contra hready
      simp [takeNextRunnableTransaction_of_not_ready hready] at hnext
    obtain ⟨blocked, rest, hpend, hblkd, hfree⟩ :=
      exists_blocked db [] db.pendingTransactions
    rw [takeNextRunnableTransaction_eq hcons hready hpend hblkd hfree] at hnext
    have hb := hfree b hnext
    refine ⟨fun hwait => ?_, fun hrunning => hb (.inl ⟨a, hrunning, hconfl⟩)⟩
    rw [← cons_head?_tail hnext] at hpend
    rw [hpend] at hqueue hwait
    rcases mem_append.mp hwait with hahead | hbehind
    · by_cases hmode : a.mode = .readWrite
      · exact hb (.inr ⟨a, hahead, hmode, hconfl.1⟩)
      · exact hkept ⟨hready, blocked, b, rest.tail, hpend, hblkd, hb,
          hconfl.2.resolve_left hmode, a, hahead, hconfl.1⟩
    · refine not_sublist_swap hcons.nodup.of_map hpair ?_
      rcases mem_cons.mp hbehind with rfl | hrest
      · exact hpair
      · exact (((singleton_sublist.mpr hrest).cons_cons b).trans
          (sublist_append_right _ _)).trans hqueue

/-- A writer of store 1 and behind it a reader of both stores. -/
def queuedDatabase : UniqueIDBDatabase :=
  ((create true).enqueueTransaction (sampleTransaction 0)).enqueueTransaction (sampleTransaction 1)

/-- The reader conflicts with the writer and starts when the writer is completed. -/
theorem startsInOrder_queuedDatabase :
    let created := [sampleTransaction 0, sampleTransaction 1]
    let started := queuedDatabase.operationAndTransactionTimerFired
    let completed := started.inProgressTransactionCompleted 0
    Conflicts (sampleTransaction 0) (sampleTransaction 1) ∧
      (queuedDatabase.takeNextRunnableTransaction.1 = some (sampleTransaction 0) ∧
        queuedDatabase.StartsInOrder created) ∧
      (started.takeNextRunnableTransaction.1 = none ∧ started.StartsInOrder created) ∧
      completed.takeNextRunnableTransaction.1 = some (sampleTransaction 1) ∧
        completed.StartsInOrder created := by
  intro created started completed
  have hqueued : Reachable created queuedDatabase :=
    .enqueue (.enqueue (.create true) (sampleTransaction 0) (by decide))
      (sampleTransaction 1) (by decide)
  have hstarted : Reachable created started := .timerFired hqueued
  have hcompleted : Reachable created completed :=
    .completed hstarted (mem_cons_self : sampleTransaction 0 ∈ started.inProgressTransactions)
  -- a single transaction of a queue has none ahead of it
  have halone {db : UniqueIDBDatabase} (hpend : db.pendingTransactions = [sampleTransaction 1]) :
      ¬ db.Overtakes := by
    rintro ⟨-, blocked, writer, rest, hsplit, -, -, -, reader, hreader, -⟩
    rw [hpend] at hsplit
    cases blocked with
    | nil => exact absurd hreader not_mem_nil
    | cons first more => simp at hsplit
  refine ⟨⟨⟨1, by decide, by decide⟩, .inl rfl⟩, ⟨rfl, (startsInOrder_iff hqueued).mpr ?_⟩,
    ⟨rfl, (startsInOrder_iff hstarted).mpr (halone rfl)⟩, rfl,
    (startsInOrder_iff hcompleted).mpr (halone rfl)⟩
  rintro ⟨-, blocked, writer, rest, hsplit, hblocked, -, -, reader, hreader, -⟩
  cases blocked with
  | nil => exact absurd hreader not_mem_nil
  | cons first more =>
    -- nothing is in progress that could block the first transaction
    obtain ⟨other, hother, -⟩ | ⟨other, hother, -⟩ := hblocked.1
    · exact absurd hother not_mem_nil
    · exact absurd hother not_mem_nil

/-- The reader has to wait for the writer in progress, and the second writer starts before it. -/
theorem not_startsInOrder_sampleDatabase :
    ¬ sampleDatabase.StartsInOrder
      [sampleTransaction 0, sampleTransaction 1, sampleTransaction 2] := by
  intro horder
  refine (horder (sampleTransaction 1) (sampleTransaction 2) (by simp)
    ⟨⟨2, by decide, by decide⟩, .inr rfl⟩ rfl).1 ?_
  exact mem_cons_self

/-- A timer firing loses and duplicates no transaction, and it starts the one that has waited
longest exactly if the backing store is ready and none in progress conflicts with it. -/
theorem timerFired_first (h : Reachable created db) :
    let fired := db.operationAndTransactionTimerFired
    (fired.pendingTransactions ++ fired.inProgressTransactions).Perm
      (db.pendingTransactions ++ db.inProgressTransactions) ∧
    ∀ first ∈ db.pendingTransactions.head?, first ∈ fired.inProgressTransactions ↔
      db.Ready ∧ ∀ other ∈ db.inProgressTransactions, ¬ Conflicts other first := by
  have hcons := consistent_of_reachable h
  have hstart := hcons.started
  have hnodup := (hcons.queue.map (·.identifier)).nodup hcons.nodup
  have hfirst (first) : (∀ other ∈ db.inProgressTransactions, ¬ Conflicts other first) ↔
      ¬ db.Blocked [] first := by simp [Blocked]
  simp only [hfirst, operationAndTransactionTimerFired]
  by_cases hready : db.Ready
  swap
  · rw [takeNextRunnableTransaction_of_not_ready hready]
    exact ⟨.refl _, by grind⟩
  obtain ⟨blocked, rest, hpend, hblkd, hfree⟩ := exists_blocked db [] db.pendingTransactions
  rw [takeNextRunnableTransaction_eq hcons hready hpend hblkd hfree]
  have hblocked (first) (hf : first ∈ blocked.head?) : db.Blocked [] first := by
    cases blocked <;> simp_all [AllBlocked]
  rw [hpend] at hstart hnodup ⊢
  cases rest with
  | nil =>
    simp only [head?_nil, tail_nil, append_nil]
    exact ⟨.refl _, by grind⟩
  | cons next rest =>
    have hothers := eraseP_inProgressTransactions hcons (by simp [hpend] : next ∈ _)
    simp only [head?_cons, tail_cons, hothers]
    constructor
    · simpa using perm_middle.append_left blocked
    · cases blocked <;> grind

/-- The reader stays behind the writer in progress. -/
theorem timerFired_first_sampleDatabase : sampleTransaction 1 ∉
    sampleDatabase.operationAndTransactionTimerFired.inProgressTransactions := fun hstarted =>
  (((timerFired_first reachable_sampleDatabase).2 _ rfl).mp hstarted).2 (sampleTransaction 0)
    mem_cons_self ⟨⟨1, by decide, by decide⟩, .inl rfl⟩

end UniqueIDBDatabase

end QtWebKit.IndexedDB
