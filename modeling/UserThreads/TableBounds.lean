import UserThreads.ReadyQueues

/-!
The fixed tables: the exit records, the counters of waiters of semaphores and of
conditions, and the record of conditions. They are indexed by counters that only
grow. Conditions are numbered from 0 and semaphores from 1, so the last of as many
semaphores as there are entries has no entry.
-/
namespace UserThreads.Threads

open LinkedCells Queue Runs

inductive Table
  | exitedThreadIDs
  | semaphoreWaiters
  | conditionRecord
  | conditionWaiters
deriving DecidableEq

def Table.size (cap : Capacity) : Table → ℕ
  | .exitedThreadIDs => cap.exited
  | .semaphoreWaiters => cap.semaphores
  | .conditionRecord | .conditionWaiters => cap.conditions

/-- The table entry that the next statement writes, or tests before it may write it. -/
def State.tableEntry (s : State) : Option (Table × ℕ) :=
  match s.stack with
  | .wake i waked :: _ =>
    if i < 50 ∨ waked then none else some (.exitedThreadIDs, s.exitedThreadIDs.length)
  | .enter (.semaphoreP i) :: _ =>
    (s.semaphores i).bind fun v => if 0 < v then none else some (.semaphoreWaiters, i)
  | .enter (.semaphoreV i) :: _ => (s.semaphores i).map fun _ => (.semaphoreWaiters, i)
  | .enter (.condCreate _ true) :: _ => some (.conditionRecord, s.conditionID)
  | .enter (.tSig c _ _) :: _ | .waiting c :: _ =>
    (s.conditions c).map fun _ => (.conditionWaiters, c)
  | _ => none

/-- The entry lies in its table. -/
def State.InBounds (s : State) : Prop :=
  ∀ table i, s.tableEntry = some (table, i) → i < table.size s.cap

/-- Whose exit record the move writes. -/
def recordOf (x : Move × State) : List Tid :=
  match x.1, x.2.stack with
  | .exec, .wake i waked :: _ => if i < 50 ∨ waked then [] else [x.2.currentRunningThread]
  | _, _ => []

/-- The semaphore that the move creates. -/
def semOf (x : Move × State) : List SemId :=
  match x.1, x.2.stack with
  | .exec, .enter (.semaphoreCreate _ true) :: _ => [x.2.semaphoreID + 1]
  | _, _ => []

/-- The condition that the move creates. -/
def condOf (x : Move × State) : List CondId :=
  match x.1, x.2.stack with
  | .exec, .enter (.condCreate _ true) :: _ => [x.2.conditionID]
  | _, _ => []

/-- The threads that have written an exit record, the first one first: they have
returned from their functions and found no joiner. -/
def recorded : List (Move × State) → List Tid
  | [] => []
  | x :: path => recorded path ++ recordOf x

def MainCall.isSem : MainCall → Bool
  | .sem _ => true
  | _ => false

def MainCall.isCond : MainCall → Bool
  | .cond _ => true
  | _ => false

/-- The semaphores that `main` and the threads have created, in this order. -/
def semsMade (calls : List MainCall) : List (Move × State) → List SemId
  | [] => List.range' 1 (calls.countP MainCall.isSem)
  | x :: path => semsMade calls path ++ semOf x

def condsMade (calls : List MainCall) : List (Move × State) → List CondId
  | [] => List.range (calls.countP MainCall.isCond)
  | x :: path => condsMade calls path ++ condOf x

/-- There is room for what the next statement does: for an exit record or a condition
if there have been fewer before than the table has entries; for the waiters of a
semaphore if it is one of the first, of which there is one less than entries. -/
def HasRoom (cap : Capacity) (calls : List MainCall) (path : List (Move × State))
    (s : State) : Prop :=
  match s.tableEntry with
  | none | some (.conditionWaiters, _) => True
  | some (.exitedThreadIDs, _) => (recorded path).length < cap.exited
  | some (.conditionRecord, _) => (condsMade calls path).length < cap.conditions
  | some (.semaphoreWaiters, i) => i ∈ (semsMade calls path).take (cap.semaphores - 1)

/-- The counters that index the tables, and the objects that carry them. -/
structure Tabled (cap : Capacity) (calls : List MainCall) (path : List (Move × State))
    (s : State) : Prop where
  cap : s.cap = cap
  exited : s.exitedThreadIDs = recorded path
  sems : semsMade calls path = List.range' 1 s.semaphoreID
  conds : condsMade calls path = List.range s.conditionID
  sem : ∀ i v, s.semaphores i = some v → 1 ≤ i ∧ i ≤ s.semaphoreID
  cond : ∀ c o, s.conditions c = some o → c < s.conditionID
  room : s.conditionID ≤ s.cap.conditions

variable {g : Grain} {s s' s₀ a : State} {m : Move} {cap : Capacity} {calls : List MainCall}
  {path : List (Move × State)}

theorem Trans.tables (h : Trans g s m s') :
    s'.cap = s.cap ∧ s'.exitedThreadIDs = s.exitedThreadIDs ++ recordOf (m, s) ∧
      s'.semaphoreID = s.semaphoreID + (semOf (m, s)).length ∧
      s'.conditionID = s.conditionID + (condOf (m, s)).length := by
  cases h with
  | control m k b es h =>
    cases h with
    | nullReturn op k hstack hop => cases hop <;> simp [recordOf, semOf, condOf, *]
    | enable f k hstack hf => rcases hf with rfl | rfl | rfl <;> simp [recordOf, semOf, condOf, *]
    | _ => simp [recordOf, semOf, condOf, *]
  | suspend q f k next store h => cases h <;> simp [recordOf, semOf, condOf, *]
  | semValue op i k v v' hstack _ hop =>
    rcases hop with ⟨rfl, -⟩ | ⟨rfl, -⟩ <;> simp [recordOf, semOf, condOf, *]
  | _ => simp [recordOf, semOf, condOf, *]

theorem some_of_update {α : Type} {f : ℕ → Option α} {j : ℕ} {o : Option α} {P : ℕ → Prop}
    (hf : ∀ i v, f i = some v → P i) (hj : o ≠ none → P j) (i : ℕ) (v : α)
    (h : Function.update f j o i = some v) : P i := by
  by_cases hij : i = j
  · subst hij
    rw [Function.update_self] at h
    exact hj (by simp [h])
  · rw [Function.update_of_ne hij] at h
    exact hf i v h

/-- The indexes of semaphores and conditions are those that have been given out. -/
theorem Trans.objects (h : Trans g s m s')
    (hsem : ∀ i v, s.semaphores i = some v → 1 ≤ i ∧ i ≤ s.semaphoreID)
    (hcond : ∀ c o, s.conditions c = some o → c < s.conditionID)
    (hroom : s.conditionID ≤ s.cap.conditions) :
    (∀ i v, s'.semaphores i = some v → 1 ≤ i ∧ i ≤ s'.semaphoreID) ∧
      (∀ c o, s'.conditions c = some o → c < s'.conditionID) ∧
      s'.conditionID ≤ s'.cap.conditions := by
  cases h with
  | semValue op i k v v' hstack hold =>
    exact ⟨some_of_update hsem fun _ => hsem i v hold, hcond, hroom⟩
  | semFree i k v hstack hold =>
    exact ⟨some_of_update hsem fun _ => hsem i v hold, hcond, hroom⟩
  | newSem count k hstack =>
    refine ⟨some_of_update (fun i v hi => ?_) fun _ => ?_, hcond, hroom⟩
    · exact ⟨(hsem i v hi).1, Nat.le_succ_of_le (hsem i v hi).2⟩
    · exact ⟨Nat.succ_pos _, le_rfl⟩
  | newCond lock k hstack hid =>
    refine ⟨hsem, some_of_update (fun c o hc => ?_) fun _ => ?_, hid⟩
    · exact Nat.lt_succ_of_lt (hcond c o hc)
    · exact Nat.lt_succ_self _
  | _ => exact ⟨hsem, hcond, hroom⟩

theorem semOf_cases (x : Move × State) : semOf x = [] ∨ semOf x = [x.2.semaphoreID + 1] := by
  unfold semOf
  split <;> simp

theorem condOf_cases (x : Move × State) : condOf x = [] ∨ condOf x = [x.2.conditionID] := by
  unfold condOf
  split <;> simp

theorem Tabled.step (ht : Tabled cap calls path s) (h : Trans g s m s') :
    Tabled cap calls ((m, s) :: path) s' := by
  obtain ⟨hcap, hexited, hsems, hconds⟩ := h.tables
  obtain ⟨hsem, hcond, hroom⟩ := h.objects ht.sem ht.cond ht.room
  refine ⟨hcap.trans ht.cap, by rw [hexited, ht.exited, recorded], ?_, ?_, hsem, hcond, hroom⟩
  · rw [semsMade, ht.sems, hsems]
    rcases semOf_cases (m, s) with hnone | hone
    · simp [hnone]
    · rw [hone, List.length_singleton, List.range'_concat, Nat.one_mul, Nat.add_comm]
  · rw [condsMade, ht.conds, hconds]
    rcases condOf_cases (m, s) with hnone | hone
    · simp [hnone]
    · rw [hone, List.length_singleton, List.range_succ]

theorem Tabled.mainCall {b : State} {call : MainCall} (ht : Tabled cap calls [] a)
    (h : mainCall a call = some b) : Tabled cap (calls ++ [call]) [] b := by
  have hsems : calls.countP MainCall.isSem = a.semaphoreID := by
    simpa [semsMade] using congrArg List.length ht.sems
  have hconds : calls.countP MainCall.isCond = a.conditionID := by
    simpa [condsMade] using congrArg List.length ht.conds
  cases call with
  | lock =>
    cases h
    refine ⟨ht.cap, ht.exited, ?_, ?_, ht.sem, ht.cond, ht.room⟩
    · simp [semsMade, MainCall.isSem, hsems, newLock]
    · simp [condsMade, MainCall.isCond, hconds, newLock]
  | cond lock =>
    simp only [Threads.mainCall, newCond, Option.bind_eq_bind, Option.bind_eq_some_iff,
      Option.some.injEq] at h
    obtain ⟨_, hid, rfl⟩ := h
    refine ⟨ht.cap, ht.exited, ?_, ?_, ht.sem, some_of_update (fun c o hc => ?_) fun _ => ?_, ?_⟩
    · simp [semsMade, MainCall.isSem, hsems]
    · simp [condsMade, MainCall.isCond, hconds]
    · exact Nat.lt_succ_of_lt (ht.cond c o hc)
    · exact Nat.lt_succ_self _
    · exact of_guard hid
  | sem count =>
    cases h
    refine ⟨ht.cap, ht.exited, ?_, ?_, some_of_update (fun i v hi => ?_) fun _ => ?_, ht.cond,
      ht.room⟩
    · simp [semsMade, MainCall.isSem, hsems, newSem]
    · simp [condsMade, MainCall.isCond, hconds, newSem]
    · exact ⟨(ht.sem i v hi).1, Nat.le_succ_of_le (ht.sem i v hi).2⟩
    · exact ⟨Nat.succ_pos _, le_rfl⟩

/-- What `main` has created before it calls `t_start`. -/
theorem tabled_of_main (h : calls.foldlM mainCall (loaded cap) = some a) :
    Tabled cap calls [] a := by
  have hloaded : Tabled cap [] [] (loaded cap) :=
    ⟨rfl, rfl, rfl, rfl, by simp [loaded], by simp [loaded], Nat.zero_le _⟩
  have hfold : ∀ (rest done : List MainCall) (b : State), Tabled cap done [] b →
      rest.foldlM mainCall b = some a → Tabled cap (done ++ rest) [] a := by
    intro rest
    induction rest with
    | nil =>
      intro done b hb h
      cases h
      rwa [List.append_nil]
    | cons call rest ih =>
      intro done b hb h
      simp only [List.foldlM_cons, Option.bind_eq_bind, Option.bind_eq_some_iff] at h
      obtain ⟨c, hc, h⟩ := h
      rw [← List.singleton_append, ← List.append_assoc]
      exact ih _ c (hb.mainCall hc) h
  exact hfold calls [] _ hloaded h

theorem Tabled.start {f : ThreadFunc} {v : AnyPtr} {p : ℤ} (ht : Tabled cap calls [] a)
    (ha : Created a) (h : tStart f v p a = some s₀) : Tabled cap calls [] s₀ := by
  obtain ⟨store, -, -, rfl⟩ := tStart_spec ha h
  exact ⟨ht.cap, ht.exited, ht.sems, ht.conds, ht.sem, ht.cond, ht.room⟩

theorem tabled_of_path (ht : Tabled cap calls [] s₀) (hpath : Path (step g) s₀ path s) :
    Tabled cap calls path s := by
  induction hpath with
  | nil => exact ht
  | snoc _ hstep ih => exact ih.step (step_trans hstep)

/-- What the index of an entry is. -/
inductive Indexes (s : State) : Table → ℕ → Prop
  | exited : Indexes s .exitedThreadIDs s.exitedThreadIDs.length
  | semaphore (i : SemId) (v : ℤ) (h : s.semaphores i = some v) : Indexes s .semaphoreWaiters i
  | record : Indexes s .conditionRecord s.conditionID
  | condition (c : CondId) (o : Condition) (h : s.conditions c = some o) :
      Indexes s .conditionWaiters c

theorem tableEntry_indexes {table : Table} {i : ℕ} (h : s.tableEntry = some (table, i)) :
    Indexes s table i := by
  unfold State.tableEntry at h
  split at h
  · split at h
    · cases h
    · cases h
      exact .exited
  · obtain ⟨v, hv, h⟩ := Option.bind_eq_some_iff.mp h
    split at h
    · cases h
    · cases h
      exact .semaphore _ v hv
  · obtain ⟨v, hv, h⟩ := Option.map_eq_some_iff.mp h
    cases h
    exact .semaphore _ v hv
  · cases h
    exact .record
  · obtain ⟨o, ho, h⟩ := Option.map_eq_some_iff.mp h
    cases h
    exact .condition _ o ho
  · obtain ⟨o, ho, h⟩ := Option.map_eq_some_iff.mp h
    cases h
    exact .condition _ o ho
  · cases h

theorem mem_take_range' {i n k : ℕ} (hpos : 1 ≤ i) (hle : i ≤ n) :
    i < k ↔ i ∈ (List.range' 1 n).take (k - 1) := by
  rcases Nat.le_total n (k - 1) with hfew | hmany
  · rw [List.take_range'_of_length_le hfew, List.mem_range'_1]
    omega
  · rw [List.take_range'_of_length_ge hmany, List.mem_range'_1]
    omega

/-- The next statement stays within its table exactly when there is room for it. -/
theorem Tabled.inBounds_iff (ht : Tabled cap calls path s) :
    s.InBounds ↔ HasRoom cap calls path s := by
  unfold State.InBounds HasRoom
  cases hentry : s.tableEntry with
  | none => simp
  | some entry =>
    obtain ⟨table, i⟩ := entry
    have hone : (∀ table' i', some (table, i) = some (table', i') → i' < table'.size s.cap) ↔
        i < table.size cap := by simp [ht.cap]
    rw [hone]
    cases tableEntry_indexes hentry with
    | exited => rw [ht.exited, Table.size]
    | semaphore _ v hv =>
      -- semaphores are numbered from 1
      obtain ⟨hpos, hle⟩ := ht.sem _ v hv
      simp only [ht.sems]
      exact mem_take_range' hpos hle
    | record => rw [ht.conds, List.length_range, Table.size]
    | condition _ o ho =>
      exact iff_of_true (ht.cap ▸ lt_of_lt_of_le (ht.cond _ o ho) ht.room) trivial

theorem Tabled.run_in_bounds_iff (h₀ : Tabled cap calls [] s₀)
    (hpath : Path (Threads.step g) s₀ path s) :
    (((∀ x ∈ path, x.2.InBounds) ∧ s.InBounds) ∧ (semsMade calls path).Nodup ∧
      (condsMade calls path).Nodup) ↔
      (∀ post x pre, path = post ++ x :: pre → HasRoom cap calls pre x.2) ∧
        HasRoom cap calls path s := by
  have ht := tabled_of_path h₀ hpath
  have hnodup : (semsMade calls path).Nodup ∧ (condsMade calls path).Nodup := by
    rw [ht.sems, ht.conds]
    exact ⟨List.nodup_range', List.nodup_range⟩
  rw [and_iff_left hnodup, ht.inBounds_iff]
  refine and_congr_left fun _ => ⟨fun hall post x pre hsplit => ?_, fun hall x hx => ?_⟩
  · rw [← (tabled_of_path h₀ (hpath.of_append hsplit)).inBounds_iff]
    exact hall x (by simp [hsplit])
  · obtain ⟨post, pre, hsplit⟩ := List.append_of_mem hx
    rw [(tabled_of_path h₀ (hpath.of_append hsplit)).inBounds_iff]
    exact hall post x pre hsplit

/-- Everything written into a table stays inside it exactly when there is room whenever
something is written, whatever `main` and the threads create and whenever they end. The
indexes of two semaphores or two conditions never coincide. -/
theorem tables_in_bounds_iff (hmain : calls.foldlM mainCall (loaded cap) = some a) :
    (∀ lock, (mainCall a (.cond lock)).isSome = true ↔
      calls.countP MainCall.isCond < cap.conditions) ∧
    ∀ f v p s₀ path s, tStart f v p a = some s₀ → Path (step g) s₀ path s →
      ((((∀ x ∈ path, x.2.InBounds) ∧ s.InBounds) ∧ (semsMade calls path).Nodup ∧
        (condsMade calls path).Nodup) ↔
        (∀ post x pre, path = post ++ x :: pre → HasRoom cap calls pre x.2) ∧
          HasRoom cap calls path s) := by
  have ha := tabled_of_main hmain
  refine ⟨fun lock => ?_, fun f v p s₀ path s hstart hpath => ?_⟩
  · have hconds : calls.countP MainCall.isCond = a.conditionID := by
      simpa [condsMade] using congrArg List.length ha.conds
    rw [hconds, ← ha.cap]
    by_cases hid : a.conditionID < a.cap.conditions <;> simp [mainCall, newCond, hid]
  · exact (ha.start (Prepared.created ⟨cap, calls, hmain⟩) hstart).run_in_bounds_iff hpath

/-- The 20th semaphore has index 20, and blocking on it counts outside the table. -/
theorem semaphore_out_of_bounds :
    ∃ s₀ s, Initial s₀ ∧ s.cap = {} ∧ Run (step .statement) AnyTiming s₀ s ∧
      s.stack = [.enter (.semaphoreP 20), .user] ∧ ¬ s.InBounds := by
  obtain ⟨s₀, s, h₀, hrun, hgood⟩ := exists_run .statement AnyTiming (List.replicate 20 (.sem 0))
    127 [.exec, .exec, .call (.semaphoreP 20)]
    (fun s => s.cap = {} && s.stack = [.enter (.semaphoreP 20), .user] &&
      s.tableEntry = some (.semaphoreWaiters, 20)) (by decide +kernel)
  simp only [Bool.and_eq_true, decide_eq_true_eq] at hgood
  obtain ⟨⟨hcap, hstack⟩, hentry⟩ := hgood
  refine ⟨s₀, s, h₀, hcap, hrun, hstack, fun hin => ?_⟩
  have hlt := hin _ _ hentry
  rw [hcap] at hlt
  exact absurd hlt (by decide)

/-- One semaphore made by `main`, on which the first thread blocks. -/
theorem tables_in_bounds_iff_one :
    ∃ (path : List (Move × State)) (s : State),
      s.tableEntry = some (.semaphoreWaiters, 1) ∧
      ((((∀ x ∈ path, x.2.InBounds) ∧ s.InBounds) ∧ (semsMade [.sem 0] path).Nodup ∧
        (condsMade [.sem 0] path).Nodup) ↔
        (∀ post x pre, path = post ++ x :: pre → HasRoom {} [.sem 0] pre x.2) ∧
          HasRoom {} [.sem 0] path s) := by
  have hcomputed : ((booted [.sem 0] 127).bind (play (step .statement) AnyTiming
      [.exec, .exec, .call (.semaphoreP 1)])).any
        (fun s => s.tableEntry = some (.semaphoreWaiters, 1)) = true := by decide +kernel
  obtain ⟨s, hs, hentry⟩ := (Option.any_eq_true ..).mp hcomputed
  obtain ⟨s₀, h₀, hplay⟩ := Option.bind_eq_some_iff.mp hs
  obtain ⟨a, hmain, hstart⟩ := Option.bind_eq_some_iff.mp h₀
  obtain ⟨path, hpath, -⟩ := path_of_play hplay
  exact ⟨path, s, by simpa using hentry,
    (tables_in_bounds_iff hmain).2 _ _ _ s₀ path s hstart hpath⟩

end UserThreads.Threads
