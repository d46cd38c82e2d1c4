import UserThreads.Points

/-!
The queues, the counters kept beside them, and the history agree: what a queue
holds is what has been inserted and not yet removed, in order. The agreement is
claimed for the queues that are `good`: all of them when every routine is one
step, and those of conditions and semaphores when the wake loop inserts into a
ready queue statement by statement. Ownership of nodes keeps the latter apart
from whatever happens to the ready queues, and lets a property of what is
inserted (`fits`) be carried by all nodes.
-/
namespace UserThreads.Threads

open LinkedCells Queue Runs

/-- The threads inserted into a queue, the first one first. -/
def insertedAt (q : QRef) : List Event → List Tid
  | [] => []
  | .inserted r t :: rest => if r = q then insertedAt q rest ++ [t] else insertedAt q rest
  | _ :: rest => insertedAt q rest

def removedAt (q : QRef) : List Event → List Tid
  | [] => []
  | .removed r t :: rest => if r = q then removedAt q rest ++ [t] else removedAt q rest
  | _ :: rest => removedAt q rest

/-- An event of a history that has grown is an old one or a new one. -/
theorem split_append {e : Event} {es hist pre post : List Event}
    (h : es ++ hist = pre ++ e :: post) :
    (∃ pre', pre = es ++ pre' ∧ hist = pre' ++ e :: post) ∨
      ∃ rest, es = pre ++ e :: rest ∧ post = rest ++ hist := by
  rcases List.append_eq_append_iff.mp h with ⟨pre', hpre, hhist⟩ | ⟨rest, hes, hpost⟩
  · exact Or.inl ⟨pre', hpre, hhist⟩
  · cases rest with
    | nil => exact Or.inl ⟨[], by rw [hes, List.append_nil, List.append_nil], hpost.symm⟩
    | cons e' rest =>
      cases hpost
      exact Or.inr ⟨rest, hes, rfl⟩

/-- The place holds no queue, or a well-formed one with these nodes. -/
def Chain (store : Store QRef Tid) (q : QRef) (xs : List (Addr × Tid)) : Prop :=
  store.queues q = none ∧ xs = [] ∨ Holds store q xs

structure Ledger (good : QRef → Prop) (fits : QRef → Tid → Prop) (owner : Addr → Option QRef)
    (store : Store QRef Tid) (counter : QRef → ℤ) (fresh : Addr) (hist : List Event) : Prop where
  owned : Owned owner store
  fresh : ∀ a, fresh ≤ a → owner a = none
  cell : ∀ a c q, store.cells a = some c → owner a = some q → fits q c.obj
  queue : ∀ q, good q → ∃ xs, Chain store q xs ∧ counter q = xs.length ∧
    insertedAt q hist = removedAt q hist ++ xs.map Prod.snd

variable {good : QRef → Prop} {fits : QRef → Tid → Prop} {owner : Addr → Option QRef}
  {store store' : Store QRef Tid} {counter : QRef → ℤ} {fresh : Addr} {es hist : List Event}
  {q : QRef} {t : Tid} {xs : List (Addr × Tid)}

theorem insertedAt_append : insertedAt q (es ++ hist) = insertedAt q hist ++ insertedAt q es := by
  induction es with
  | nil => simp [insertedAt]
  | cons e rest ih =>
    cases e with
    | inserted r t =>
      by_cases hr : r = q <;> simp [insertedAt, hr, ih]
    | _ => simpa [insertedAt] using ih

theorem removedAt_append : removedAt q (es ++ hist) = removedAt q hist ++ removedAt q es := by
  induction es with
  | nil => simp [removedAt]
  | cons e rest ih =>
    cases e with
    | removed r t =>
      by_cases hr : r = q <;> simp [removedAt, hr, ih]
    | _ => simpa [removedAt] using ih

theorem inserted_mem (h : t ∈ insertedAt q es) : .inserted q t ∈ es := by
  induction es with
  | nil => cases h
  | cons e rest ih =>
    cases e with
    | inserted r u =>
      by_cases hr : r = q
      · subst hr
        rw [insertedAt, if_pos rfl, List.mem_append, List.mem_singleton] at h
        rcases h with h | rfl
        · exact List.mem_cons_of_mem _ (ih h)
        · exact List.mem_cons_self ..
      · rw [insertedAt, if_neg hr] at h
        exact List.mem_cons_of_mem _ (ih h)
    | _ => exact List.mem_cons_of_mem _ (ih h)

theorem removed_mem (h : t ∈ removedAt q es) : .removed q t ∈ es := by
  induction es with
  | nil => cases h
  | cons e rest ih =>
    cases e with
    | removed r u =>
      by_cases hr : r = q
      · subst hr
        rw [removedAt, if_pos rfl, List.mem_append, List.mem_singleton] at h
        rcases h with h | rfl
        · exact List.mem_cons_of_mem _ (ih h)
        · exact List.mem_cons_self ..
      · rw [removedAt, if_neg hr] at h
        exact List.mem_cons_of_mem _ (ih h)
    | _ => exact List.mem_cons_of_mem _ (ih h)

theorem Chain.contents_eq (h : Chain store q xs) : store.contents q = xs.map Prod.snd := by
  rcases h with ⟨hnone, rfl⟩ | h
  · simp [Store.contents, hnone]
  · exact h.contents_eq

theorem Chain.frame {r : QRef} (h : Chain store r xs) (ho : Owned owner store) (hne : r ≠ q)
    (hat : OnlyAt owner q store store') : Chain store' r xs := by
  rcases h with ⟨hnone, hxs⟩ | h
  · exact Or.inl ⟨(hat.queues r hne).trans hnone, hxs⟩
  · exact Or.inr (h.frame ho hne hat)

/-- A queue that is operated on is there. -/
theorem Chain.holds (h : Chain store q xs) (hq : store.queues q ≠ none) : Holds store q xs :=
  h.resolve_left fun hnone => hq hnone.1

theorem queue_of_qInsert {a : Addr} (h : store.qInsert q a t = some store') :
    store.queues q ≠ none := by
  simp only [Store.qInsert, Option.bind_eq_bind, Option.bind_eq_some_iff] at h
  obtain ⟨store₁, h₁, store₂, h₂, -⟩ := h
  obtain ⟨-, rfl⟩ := newObj_spec h₁
  intro hnone
  simp [Store.linkTail, Store.hasTail, hnone] at h₂

theorem queue_of_qRemove {obj : Option Tid} (h : store.qRemove q = some (obj, store')) :
    store.queues q ≠ none := by
  intro hnone
  simp [Store.qRemove, hnone] at h

theorem Ledger.free (h : Ledger good fits owner store counter fresh hist) :
    store.cells fresh = none := by
  cases hcell : store.cells fresh with
  | none => rfl
  | some c =>
    obtain ⟨r, hr⟩ := h.owned.cell fresh c hcell
    rw [h.fresh fresh le_rfl] at hr
    cases hr

theorem Ledger.extend (h : Ledger good fits owner store counter fresh hist) :
    Ledger good fits (Function.update owner fresh (some q)) store counter (fresh + 1) hist where
  owned := h.owned.extend (h.fresh fresh le_rfl)
  fresh a ha := by
    rw [Function.update_of_ne (ne_of_gt (Nat.lt_of_succ_le ha))]
    exact h.fresh a (Nat.le_of_succ_le ha)
  cell a c r hc hr := by
    by_cases ha : a = fresh
    · rw [ha, h.free] at hc
      cases hc
    · rw [Function.update_of_ne ha] at hr
      exact h.cell a c r hc hr
  queue := h.queue

theorem Ledger.insert (h : Ledger good fits owner store counter fresh hist)
    (hins : store.qInsert q fresh t = some store') (hfit : fits q t) :
    Ledger good fits (Function.update owner fresh (some q)) store'
      (Function.update counter q (counter q + 1)) (fresh + 1) (.inserted q t :: hist) := by
  have hfresh := h.fresh fresh le_rfl
  obtain ⟨howned, hat⟩ := h.owned.qInsert hfresh hins
  refine ⟨howned, h.extend.fresh, ?_, ?_⟩
  · intro a c r hc hr
    rcases qInsert_obj hins hc with ⟨rfl, hobj⟩ | ⟨c', hc', hobj⟩
    · rw [Function.update_self, Option.some.injEq] at hr
      rwa [hobj, ← hr]
    · exact hobj ▸ h.extend.cell a c' r hc' hr
  intro r hr
  obtain ⟨xs, hchain, hcount, hhist⟩ := h.queue r hr
  by_cases hrq : r = q
  · subst hrq
    obtain ⟨store₁, hins₁, hholds⟩ := (hchain.holds (queue_of_qInsert hins)).qInsert h.free t
    rw [hins] at hins₁
    cases hins₁
    refine ⟨xs ++ [(fresh, t)], Or.inr hholds, ?_, ?_⟩
    · simp [hcount]
    · simp [insertedAt, removedAt, hhist]
  · refine ⟨xs, hchain.frame h.extend.owned hrq hat, ?_, ?_⟩
    · rw [Function.update_of_ne hrq, hcount]
    · simpa [insertedAt, removedAt, Ne.symm hrq] using hhist

theorem Ledger.remove (h : Ledger good fits owner store counter fresh hist)
    (hrem : store.qRemove q = some (some t, store')) :
    Ledger good fits owner store' (Function.update counter q (counter q - 1)) fresh
      (.removed q t :: hist) := by
  obtain ⟨howned, hat⟩ := h.owned.qRemove hrem
  refine ⟨howned, h.fresh, fun a c r hc => h.cell a c r (qRemove_obj hrem hc), ?_⟩
  intro r hr
  obtain ⟨xs, hchain, hcount, hhist⟩ := h.queue r hr
  by_cases hrq : r = q
  · subst hrq
    have hholds := hchain.holds (queue_of_qRemove hrem)
    cases xs with
    | nil =>
      have hrec := hholds.record
      simp [Store.qRemove, hrec] at hrem
    | cons p rest =>
      obtain ⟨a, u⟩ := p
      obtain ⟨store₁, hrem₁, hholds₁⟩ := hholds.qRemove
      rw [hrem] at hrem₁
      cases hrem₁
      refine ⟨rest, Or.inr hholds₁, ?_, ?_⟩
      · simp [hcount]
      · simp [insertedAt, removedAt, hhist]
  · refine ⟨xs, hchain.frame h.owned hrq hat, ?_, ?_⟩
    · rw [Function.update_of_ne hrq, hcount]
    · simpa [insertedAt, removedAt, Ne.symm hrq] using hhist

theorem Ledger.create (h : Ledger good fits owner store counter fresh hist)
    (hnone : store.queues q = none) :
    Ledger good fits owner (store.qCreate q) counter fresh hist := by
  obtain ⟨howned, hat⟩ := h.owned.qCreate (q := q)
  refine ⟨howned, h.fresh, h.cell, ?_⟩
  intro r hr
  obtain ⟨xs, hchain, hcount, hhist⟩ := h.queue r hr
  by_cases hrq : r = q
  · subst hrq
    rcases hchain with ⟨-, rfl⟩ | hholds
    · exact ⟨[], Or.inr Holds.qCreate, hcount, hhist⟩
    · rw [hholds.record] at hnone
      cases hnone
  · exact ⟨xs, hchain.frame h.owned hrq hat, hcount, hhist⟩

theorem Ledger.removed (h : Ledger good fits owner store counter fresh hist)
    (hrem : store.qRemove q = some (some t, store')) : fits q t := by
  obtain ⟨b, c, hc, hb, rfl⟩ := h.owned.removed hrem
  exact h.cell b c q hc hb

theorem Ledger.mono_fits {fits' : QRef → Tid → Prop}
    (h : Ledger good fits owner store counter fresh hist) (hfits : ∀ q t, fits q t → fits' q t) :
    Ledger good fits' owner store counter fresh hist where
  owned := h.owned
  fresh := h.fresh
  cell a c q hc hq := hfits q c.obj (h.cell a c q hc hq)
  queue := h.queue

/-- A queue that is not claimed to be good may be changed in any way that
respects ownership. -/
theorem Ledger.offBook {counter' : QRef → ℤ} {hist' : List Event}
    (h : Ledger good fits owner store counter fresh hist) (hq : ¬ good q)
    (howned : Owned owner store') (hat : OnlyAt owner q store store')
    (hcell : ∀ a c r, store'.cells a = some c → owner a = some r → fits r c.obj)
    (hrest : ∀ r, r ≠ q → counter' r = counter r ∧ insertedAt r hist' = insertedAt r hist ∧
      removedAt r hist' = removedAt r hist) :
    Ledger good fits owner store' counter' fresh hist' := by
  refine ⟨howned, h.fresh, hcell, ?_⟩
  intro r hr
  have hrq : r ≠ q := fun heq => hq (heq ▸ hr)
  obtain ⟨hcounter, hinserted, hremoved⟩ := hrest r hrq
  obtain ⟨xs, hchain, hcount, hqueue⟩ := h.queue r hr
  refine ⟨xs, hchain.frame h.owned hrq hat, by rw [hcounter, hcount], ?_⟩
  rw [hinserted, hremoved, hqueue]

/-- The ledger reads nothing of the history but insertions and removals. -/
theorem Ledger.forget {hist' : List Event} (h : Ledger good fits owner store counter fresh hist)
    (hsame : ∀ r, insertedAt r hist' = insertedAt r hist ∧ removedAt r hist' = removedAt r hist) :
    Ledger good fits owner store counter fresh hist' where
  owned := h.owned
  fresh := h.fresh
  cell := h.cell
  queue q hq := by
    rw [(hsame q).1, (hsame q).2]
    exact h.queue q hq

namespace State

/-- The frame is on the stack or in a saved context. -/
def Mentions (s : State) (f : Frame) : Prop :=
  f ∈ s.stack ∨ ∃ u k, (s.tcb u).context = some k ∧ f ∈ k

end State

/-- The queues of conditions and semaphores. -/
def WaitQueues : QRef → Prop := fun q => ∀ p, q ≠ .ready p

/-- The ledger and the owners of the nodes being inserted. -/
def Booked (good : QRef → Prop) (fits : QRef → Tid → Prop) (s : State) : Prop :=
  ∃ owner, Ledger good fits owner s.store s.counter s.fresh s.hist ∧
    ∀ pc i t p a, s.Mentions (.inserting pc i t p a) → owner a = some (.ready p)

structure QueuesOk (good : QRef → Prop) (s : State) : Prop where
  booked : Booked good (fun _ _ => True) s
  ready : ∀ p, s.store.queues (.ready p) = none ↔ ¬ (0 ≤ p ∧ p < 128)
  cond : ∀ c p, s.conditionID ≤ c → s.store.queues (.cond c p) = none
  sem : ∀ i, s.semaphoreID < i → s.store.queues (.sem i) = none

section Mentions

variable {g : Grain} {s s' : State} {m : Move} {k : List Frame} {f : Frame} {b : Bool}
  {es : List Event} {pc : InsertPoint} {i : ℕ} {p : ℤ} {a : Addr}

theorem Control.inserting_mem (h : Control s m k b es) (hf : .inserting pc i t p a ∈ k) :
    .inserting pc i t p a ∈ s.stack := by
  cases h <;> simp_all

theorem mentions_of_update {u v : Tid} {c : Tcb}
    (hk : (Function.update s.tcb u c v).context = some k) (hf : f ∈ k)
    (hc : c.context = some k → s.Mentions f) : s.Mentions f := by
  by_cases hv : v = u
  · exact hc (by simpa [hv] using hk)
  · rw [Function.update_of_ne hv] at hk
    exact Or.inr ⟨v, k, hk, hf⟩

theorem Control.mentions (h : Control s m k b es) (hbase : f.isBase = true) (hf : f ∈ k) :
    f ∈ s.stack ∨ k = [f] := by
  rcases h.mem hf with htail | ⟨hmem, -⟩ | ⟨-, hnot | hk⟩
  · exact Or.inl (List.mem_of_mem_tail htail)
  · exact Or.inl hmem
  · rw [hnot] at hbase
    cases hbase
  · exact Or.inr hk

/-- A frame that stands alone is either kept or becomes the whole stack. -/
theorem Trans.mentions (h : Trans g s m s') (hbase : f.isBase = true) (hf : s'.Mentions f) :
    s.Mentions f ∨ s'.stack = [f] := by
  have hpush : ∀ {f' f'' : Frame} {k : List Frame}, s.stack = f' :: k → f''.isBase = false →
      f ∈ f'' :: k → s.Mentions f := by
    intro f' f'' k hstack hcall hf
    rcases List.mem_cons.mp hf with rfl | hf
    · simp [hbase] at hcall
    · exact Or.inl (by simp [hstack, hf])
  cases h with
  | control m k b es h =>
    rcases hf with hf | hf
    · exact (h.mentions hbase hf).imp_left Or.inl
    · exact Or.inl (Or.inr hf)
  | suspend q f k next store h =>
    obtain ⟨f', hstack⟩ := h.stack
    rcases hf with hf | ⟨v, k', hk', hf⟩
    · exact Or.inr (by rw [List.mem_singleton.mp hf])
    · refine Or.inl (mentions_of_update hk' hf fun hc => ?_)
      cases hc
      exact hpush hstack (by cases h <;> rfl) hf
  | join tid k slot hstack =>
    rcases hf with hf | ⟨v, k', hk', hf⟩
    · exact Or.inr (by rw [List.mem_singleton.mp hf])
    · refine Or.inl (mentions_of_update hk' hf fun hc => ?_)
      cases hc
      exact hpush hstack rfl hf
  | fork _ _ _ _ _ _ _ hstack _ _ _ _ hk =>
    rcases hf with hf | ⟨v, k', hk', hf⟩
    · rcases hk with ⟨-, rfl, -⟩ | ⟨-, rfl, -⟩
      · rcases List.mem_cons.mp hf with rfl | hf
        · cases hbase
        · exact Or.inl (hpush hstack rfl hf)
      · exact Or.inl (hpush hstack rfl hf)
    · exact Or.inl (mentions_of_update hk' hf (by simp))
  | exit | leave =>
    rcases hf with hf | ⟨v, k', hk', hf⟩
    · exact Or.inr (by rw [List.mem_singleton.mp hf])
    · exact Or.inl (mentions_of_update hk' hf (by simp))
  | sigWake _ _ _ _ _ _ _ _ hstack =>
    rcases hf with hf | ⟨v, k', hk', hf⟩
    · exact Or.inl (hpush hstack rfl hf)
    · exact Or.inl (mentions_of_update hk' hf fun hc => Or.inr ⟨_, _, hc, hf⟩)
  | dispatchNew =>
    rcases hf with hf | ⟨v, k', hk', hf⟩
    · exact Or.inr (by rw [List.mem_singleton.mp hf])
    · exact Or.inl (mentions_of_update hk' hf fun hc => Or.inr ⟨_, _, hc, hf⟩)
  | dispatchOld _ _ _ _ _ _ _ _ _ _ hcontext =>
    rcases hf with hf | hf
    · exact Or.inl (Or.inr ⟨_, _, hcontext, hf⟩)
    · exact Or.inl (Or.inr hf)
  | unlock _ _ _ hstack | lock _ _ _ hstack | semWake _ _ _ _ _ _ hstack
  | semValue _ _ _ _ _ hstack | semFree _ _ _ hstack | newLock _ hstack | newCond _ _ hstack
  | newSem _ _ hstack =>
    rcases hf with hf | hf
    · exact Or.inl (hpush hstack rfl hf)
    · exact Or.inl (Or.inr hf)
  | record | insertWhole | counted | insertCall | inserting | inserted =>
    rcases hf with hf | hf
    · exact Or.inr (by rw [List.mem_singleton.mp hf])
    · exact Or.inl (Or.inr hf)

/-- An insertion in progress goes on, or has been called just now. -/
theorem Trans.inserting_mem (h : Trans g s m s') (hf : s'.Mentions (.inserting pc i t p a)) :
    (∃ pc, s.Mentions (.inserting pc i t p a)) ∨
      a = s.fresh ∧ ∃ k, s.stack = .insert i t :: k ∧ p = (s.tcb t).priority := by
  rcases h.mentions rfl hf with hold | htop
  · exact Or.inl ⟨pc, hold⟩
  cases h with
  | control m k b es h =>
    exact Or.inl ⟨pc, Or.inl (h.inserting_mem (by simp [show k = _ from htop]))⟩
  | suspend q f k next store h => cases h <;> cases htop
  | fork _ _ _ _ _ _ _ _ _ _ _ _ hk =>
    rcases hk with ⟨-, rfl, -⟩ | ⟨-, rfl, -⟩ <;> cases htop
  | dispatchOld _ _ _ k' _ _ _ _ _ _ hcontext =>
    exact Or.inl ⟨pc, Or.inr ⟨_, _, hcontext, by simp [show k' = _ from htop]⟩⟩
  | insertCall _ _ k _ _ _ hstack =>
    cases htop
    exact Or.inr ⟨rfl, k, hstack, rfl⟩
  | inserting _ _ _ _ _ _ _ _ _ hstack | inserted _ _ _ _ _ _ _ hstack =>
    cases htop
    exact Or.inl ⟨_, Or.inl (hstack ▸ List.mem_cons_self ..)⟩
  | _ => cases htop

/-- The wake loop inserts what it has found in `tcbWaiting`. -/
theorem Trans.insert_mem (h : Trans g s m s') (hf : s'.Mentions (.insert i t)) :
    s.Mentions (.insert i t) ∨ s.tcbWaiting i = some t := by
  rcases h.mentions rfl hf with hold | htop
  · exact Or.inl hold
  cases h with
  | control m k b es h =>
    cases h with
    | expire _ hstack => cases htop
    | take j u k _ hslot =>
      cases htop
      exact Or.inr hslot
    | nullReturn _ _ hstack | ret _ _ hstack | waitedNull _ hstack | handled _ hstack =>
      exact Or.inl (Or.inl (by simp [hstack, show k = _ from htop]))
    | _ => cases htop
  | suspend q f k next store h => cases h <;> cases htop
  | fork _ _ _ _ _ _ _ _ _ _ _ _ hk =>
    rcases hk with ⟨-, rfl, -⟩ | ⟨-, rfl, -⟩ <;> cases htop
  | dispatchOld _ _ _ k' _ _ _ _ _ _ hcontext =>
    exact Or.inl (Or.inr ⟨_, _, hcontext, by simp [show k' = _ from htop]⟩)
  | _ => cases htop

/-- An insertion in progress keeps the owner of its node. -/
theorem Trans.owner_inserting {owner : Addr → Option QRef} {q : QRef} (h : Trans g s m s')
    (hins : ∀ pc i t p a, s.Mentions (.inserting pc i t p a) → owner a = some (.ready p))
    (hfresh : owner s.fresh = none)
    (hq : ∀ i t k, s.stack = .insert i t :: k → q = .ready (s.tcb t).priority)
    (hf : s'.Mentions (.inserting pc i t p a)) :
    Function.update owner s.fresh (some q) a = some (.ready p) := by
  rcases h.inserting_mem hf with ⟨pc, hold⟩ | ⟨rfl, k, hstack, rfl⟩
  · exact owner_extend hfresh (hins pc i t p a hold)
  · rw [Function.update_self, hq i t k hstack]

theorem Trans.owner_inserting_same {owner : Addr → Option QRef} (h : Trans g s m s')
    (hins : ∀ pc i t p a, s.Mentions (.inserting pc i t p a) → owner a = some (.ready p))
    (hnot : ∀ i t k, s.stack ≠ .insert i t :: k) (hf : s'.Mentions (.inserting pc i t p a)) :
    owner a = some (.ready p) := by
  rcases h.inserting_mem hf with ⟨pc, hold⟩ | ⟨-, k, hstack, -⟩
  · exact hins pc i t p a hold
  · exact absurd hstack (hnot i t k)

end Mentions

section Step

variable {g : Grain} {s s' : State} {m : Move}

/-- The program points at which the wake loop is about to insert or inserting. -/
def Frame.inserts : Frame → Bool
  | .insert .. | .inserting .. => true
  | _ => false

/-- The next step does not leave an insertion into a good queue half done. -/
def State.Steady (g : Grain) (good : QRef → Prop) (s : State) : Prop :=
  g = .statement → ∀ f k, s.stack = f :: k → f.inserts = true → ∀ p, ¬ good (.ready p)

theorem steady_of_routine : s.Steady .routine good := by
  simp [State.Steady]

theorem steady_waitQueues : s.Steady g WaitQueues := fun _ _ _ _ _ p h => h p rfl

theorem steady_of_not_ready (h : ∀ p, ¬ good (.ready p)) : s.Steady g good :=
  fun _ _ _ _ _ => h

/-- The step to `s'` puts the thread into the queue. -/
inductive Enqueues (fits : QRef → Tid → Prop) (m : Move) (s s' : State) : QRef → Tid → Prop
  | suspend (q : QRef) (f : Frame) (k : List Frame) (next : Frame) (h : Suspends s q f k next)
      (hslot : s.cap.hasSlot q = true) : Enqueues fits m s s' q s.currentRunningThread
  | fork (f : ThreadFunc) (v : AnyPtr) (p : ℤ) (k : List Frame)
      (hstack : s.stack = .enter (.tFork f v p) :: k) (hid : s'.gThreadID = s.gThreadID + 1)
      (htcb : s'.tcb = Function.update s.tcb (s.gThreadID + 1)
        { func := f, arg := v, priority := p, flag := 1 }) :
      Enqueues fits m s s' (.ready p) (s.gThreadID + 1)
  | signal (c : CondId) (val : AnyPtr) (lock : Option LockId) (k : List Frame) (i : ℤ) (t : Tid)
      (hstack : s.stack = .enter (.tSig c val lock) :: k) (hid : s'.gThreadID = s.gThreadID)
      (hfit : fits (.cond c i) t) : Enqueues fits m s s' (.ready (s.tcb t).priority) t
  | release (i : SemId) (k : List Frame) (t : Tid) (store : Store QRef Tid) (hm : m = .exec)
      (hstack : s.stack = .enter (.semaphoreV i) :: k) (hid : s'.gThreadID = s.gThreadID)
      (hrem : s.store.qRemove (.sem i) = some (some t, store)) (hfit : fits (.sem i) t) :
      Enqueues fits m s s' (.ready s.current.priority) t
  | wake (i : ℕ) (t : Tid) (k : List Frame) (hstack : s.stack = .insert i t :: k) :
      Enqueues fits m s s' (.ready (s.tcb t).priority) t

theorem condQueues_none {c : CondId} (n : ℕ) {q : QRef} (hq : ∀ p, q ≠ .cond c p) :
    (condQueues c store n).queues q = store.queues q := by
  induction n with
  | zero => rfl
  | succ n ih => rw [condQueues, qCreate_of_ne (hq n), ih]

theorem Ledger.condQueues {c : CondId} (h : Ledger good fits owner store counter fresh hist) (n : ℕ)
    (hnone : ∀ p, store.queues (.cond c p) = none) :
    Ledger good fits owner (condQueues c store n) counter fresh hist ∧
      ∀ p : ℤ, n ≤ p → (Threads.condQueues c store n).queues (.cond c p) = none := by
  induction n with
  | zero => exact ⟨h, fun p _ => hnone p⟩
  | succ n ih =>
    obtain ⟨hledger, hrest⟩ := ih
    refine ⟨hledger.create (hrest n (Int.le_refl _)), fun p hp => ?_⟩
    rw [Threads.condQueues, qCreate_of_ne]
    · exact hrest p (by omega)
    · simp only [ne_eq, QRef.cond.injEq, true_and]
      omega

theorem Trans.booked (h : Trans g s m s') (hb : Booked good fits s)
    (hcond : ∀ p, s.store.queues (.cond s.conditionID p) = none)
    (hsem : s.store.queues (.sem (s.semaphoreID + 1)) = none)
    (hsteady : s.Steady g good)
    (hfits : ∀ q t, Enqueues fits m s s' q t → fits q t) : Booked good fits s' := by
  obtain ⟨owner, hl, hins⟩ := hb
  have hfresh := hl.fresh s.fresh le_rfl
  have hsame : ∀ {f : Frame} {k : List Frame}, s.stack = f :: k → (∀ i t, f ≠ .insert i t) →
      ∀ pc i t p a, s'.Mentions (.inserting pc i t p a) → owner a = some (.ready p) := by
    intro f k hstack hf pc i t p a
    refine h.owner_inserting_same hins fun i t k' hstack' => ?_
    rw [hstack] at hstack'
    cases hstack'
    exact hf i t rfl
  have hmore : ∀ {q : QRef} {f : Frame} {k : List Frame}, s.stack = f :: k →
      (∀ i t, f ≠ .insert i t) → ∀ pc i t p a, s'.Mentions (.inserting pc i t p a) →
      Function.update owner s.fresh (some q) a = some (.ready p) :=
    fun hstack hf pc i t p a hmem => owner_extend hfresh (hsame hstack hf pc i t p a hmem)
  have hcalled : ∀ {i : ℕ} {t : Tid} {k : List Frame}, s.stack = .insert i t :: k →
      ∀ pc j u p a, s'.Mentions (.inserting pc j u p a) →
      Function.update owner s.fresh (some (.ready (s.tcb t).priority)) a = some (.ready p) := by
    intro i t k hstack pc j u p a
    refine h.owner_inserting hins hfresh fun j' u' k' hstack' => ?_
    rw [hstack] at hstack'
    cases hstack'
    rfl
  have hbad : ∀ {f : Frame} {k : List Frame}, g = .statement → s.stack = f :: k →
      f.inserts = true → ∀ p, ¬ good (.ready p) :=
    fun hg hstack hf => hsteady hg _ _ hstack hf
  cases h with
  | control m k b es h' =>
    refine ⟨owner, hl.forget fun r => ?_, fun pc i t p a hmem => ?_⟩
    · cases h' <;> exact ⟨rfl, rfl⟩
    · exact hins pc i t p a (hmem.imp_left h'.inserting_mem)
  | suspend q f k next store h' hslot hqins =>
    refine ⟨_, hl.insert hqins (hfits _ _ (.suspend q f k next h' hslot)), ?_⟩
    cases h' with
    | yield _ hstack | timer _ hstack | wait _ _ hstack | pass _ _ _ hstack =>
      exact hmore hstack (by simp)
  | fork f v p k k' b store hstack hslot hqins =>
    have hfit := hfits _ _ (.fork f v p k hstack rfl rfl)
    exact ⟨_, (hl.insert hqins hfit).forget fun _ => ⟨rfl, rfl⟩, hmore hstack (by simp)⟩
  | sigWake c val lock k i t store store' hstack hscan hslot hrem hslot' hqins =>
    have hne : QRef.ready (s.tcb t).priority ≠ .cond c i := by simp
    have hfit := hfits _ _ (.signal c val lock k i t hstack rfl (hl.removed hrem))
    have hmoved := (hl.remove hrem).insert hqins hfit
    rw [Function.update_of_ne hne] at hmoved
    exact ⟨_, hmoved, hmore hstack (by simp)⟩
  | semWake i k v t store store' hstack hvalue hcount hslot hrem hslot' hqins =>
    have hne : QRef.ready s.current.priority ≠ .sem i := by simp
    have hfit := hfits _ _ (.release i k t store rfl hstack rfl hrem (hl.removed hrem))
    have hmoved := (hl.remove hrem).insert hqins hfit
    rw [Function.update_of_ne hne] at hmoved
    exact ⟨_, hmoved, hmore hstack (by simp)⟩
  | newCond lock k hstack hid =>
    exact ⟨owner, (hl.condQueues 128 hcond).1, hsame hstack (by simp)⟩
  | newSem count k hstack => exact ⟨owner, hl.create hsem, hsame hstack (by simp)⟩
  | insertWhole i t k store hgrain hstack hslot hqins =>
    exact ⟨_, hl.insert hqins (hfits _ _ (.wake i t k hstack)), hcalled hstack⟩
  | insertCall i t k store linked hgrain hstack hslot hnew hlinked =>
    obtain ⟨howned, hat⟩ := hl.owned.newObj (q := .ready (s.tcb t).priority) hfresh hnew
    refine ⟨_, hl.extend.offBook (hbad hgrain hstack rfl _) howned hat ?_ fun _ _ =>
      ⟨rfl, rfl, rfl⟩, hcalled hstack⟩
    intro a c r hc hr
    rcases newObj_obj hnew hc with ⟨rfl, hobj⟩ | hold
    · rw [Function.update_self, Option.some.injEq] at hr
      rw [hobj, ← hr]
      exact hfits _ _ (.wake i t k hstack)
    · exact hl.extend.cell a c r hold hr
  | inserting pc pc' i t p a k store hgrain hstack h' =>
    have ha : owner a = some (.ready p) :=
      hins pc i t p a (Or.inl (by rw [hstack]; exact List.mem_cons_self ..))
    have hkeep : ∀ {store}, Owned owner store ∧ OnlyAt owner (.ready p) s.store store →
        (∀ a c, store.cells a = some c → ∃ c', s.store.cells a = some c' ∧ c'.obj = c.obj) →
        Ledger good fits owner store s.counter s.fresh s.hist := by
      intro store hstore hobj
      refine hl.offBook (hbad hgrain hstack rfl p) hstore.1 hstore.2 ?_ fun _ _ => ⟨rfl, rfl, rfl⟩
      intro a c r hc hr
      obtain ⟨c', hc', hsame⟩ := hobj a c hc
      exact hsame ▸ hl.cell a c' r hc' hr
    refine ⟨owner, ?_, hsame hstack (by simp)⟩
    cases h' with
    | tailNext _ hop =>
      exact hkeep (hl.owned.setTailNext ha hop) fun a c hc => setTailNext_obj hop hc
    | tail _ hop =>
      obtain ⟨Q, -, rfl⟩ := onQueue_spec hop
      exact hkeep (hl.owned.setTail ha hop) fun a c hc => ⟨c, hc, rfl⟩
    | noHead => exact hl
    | head _ hop =>
      obtain ⟨Q, -, rfl⟩ := onQueue_spec hop
      exact hkeep (hl.owned.setHead ha hop) fun a c hc => ⟨c, hc, rfl⟩
  | inserted i t p a k store hgrain hstack hinc =>
    obtain ⟨howned, hat⟩ := hl.owned.incNumObj hinc
    refine ⟨owner, hl.offBook (hbad hgrain hstack rfl p) howned hat ?_ fun r hr => ?_,
      hsame hstack (by simp)⟩
    · obtain ⟨Q, -, rfl⟩ := onQueue_spec hinc
      exact hl.cell
    · exact ⟨rfl, by simp [insertedAt, hr.symm], rfl⟩
  | counted i t p a k hgrain hstack =>
    refine ⟨owner, hl.offBook (hbad hgrain hstack rfl p) hl.owned (OnlyAt.refl ..) hl.cell
      fun r hr => ?_, hsame hstack (by simp)⟩
    exact ⟨Function.update_of_ne hr .., rfl, rfl⟩
  | dispatchNew y t k store hstack hscan hslot hrem hflag =>
    exact ⟨owner, (hl.remove hrem).forget fun _ => ⟨rfl, rfl⟩, hsame hstack (by simp)⟩
  | dispatchOld y t k k' store hstack hscan hslot hrem =>
    exact ⟨owner, hl.remove hrem, hsame hstack (by simp)⟩
  | semValue op i k v v' hstack | semFree i k v hstack | newLock k hstack | join tid k slot hstack
  | record i k hstack =>
    exact ⟨owner, hl, hsame hstack (by simp)⟩
  | unlock l k v hstack | lock l k v hstack | exit val k hstack | leave k hstack =>
    exact ⟨owner, hl.forget fun _ => ⟨rfl, rfl⟩, hsame hstack (by simp)⟩

/-- Which queues there are. -/
theorem Trans.queues (h : Trans g s m s') :
    (∀ q, s'.store.queues q = none ↔ s.store.queues q = none) ∧
        s'.conditionID = s.conditionID ∧ s'.semaphoreID = s.semaphoreID ∨
      (∀ q, (∀ p, q ≠ .cond s.conditionID p) → s'.store.queues q = s.store.queues q) ∧
        s'.conditionID = s.conditionID + 1 ∧ s'.semaphoreID = s.semaphoreID ∨
      (∀ q, q ≠ .sem (s.semaphoreID + 1) → s'.store.queues q = s.store.queues q) ∧
        s'.conditionID = s.conditionID ∧ s'.semaphoreID = s.semaphoreID + 1 := by
  cases h with
  | newCond => exact Or.inr (Or.inl ⟨fun q hq => condQueues_none 128 hq, rfl, rfl⟩)
  | newSem => exact Or.inr (Or.inr ⟨fun q hq => qCreate_of_ne hq, rfl, rfl⟩)
  | suspend _ _ _ _ _ _ _ hins | fork _ _ _ _ _ _ _ _ _ hins
  | insertWhole _ _ _ _ _ _ _ hins =>
    exact Or.inl ⟨fun q => qInsert_none hins, rfl, rfl⟩
  | sigWake _ _ _ _ _ _ _ _ _ _ _ hrem _ hins | semWake _ _ _ _ _ _ _ _ _ _ hrem _ hins =>
    exact Or.inl ⟨fun q => (qInsert_none hins).trans (qRemove_none hrem), rfl, rfl⟩
  | dispatchNew _ _ _ _ _ _ _ hrem | dispatchOld _ _ _ _ _ _ _ _ hrem =>
    exact Or.inl ⟨fun q => qRemove_none hrem, rfl, rfl⟩
  | insertCall _ _ _ _ _ _ _ _ hnew =>
    obtain ⟨-, rfl⟩ := newObj_spec hnew
    exact Or.inl ⟨fun _ => Iff.rfl, rfl, rfl⟩
  | inserting _ _ _ _ _ _ _ _ _ _ hop =>
    refine Or.inl ⟨fun q => ?_, rfl, rfl⟩
    cases hop with
    | tailNext _ hop =>
      obtain ⟨_, _, _, -, -, -, rfl⟩ := setTailNext_spec hop
      rfl
    | tail _ hop | head _ hop => exact onQueue_none hop
    | noHead => rfl
  | inserted _ _ _ _ _ _ _ _ hop => exact Or.inl ⟨fun q => onQueue_none hop, rfl, rfl⟩
  | _ => exact Or.inl ⟨fun _ => Iff.rfl, rfl, rfl⟩

theorem Trans.queuesOk (h : Trans g s m s') (hq : QueuesOk good s)
    (hsteady : s.Steady g good) : QueuesOk good s' := by
  have hbooked := h.booked hq.booked (fun p => hq.cond _ p le_rfl)
    (hq.sem _ (Nat.lt_succ_self _)) hsteady fun _ _ _ => trivial
  rcases h.queues with ⟨hsame, hcond, hsem⟩ | ⟨hsame, hcond, hsem⟩ | ⟨hsame, hcond, hsem⟩
  · refine ⟨hbooked, ?_, ?_, ?_⟩
    · intro p
      exact (hsame _).trans (hq.ready p)
    · intro c p hc
      exact (hsame _).mpr (hq.cond c p (hcond ▸ hc))
    · intro i hi
      exact (hsame _).mpr (hq.sem i (hsem ▸ hi))
  · refine ⟨hbooked, ?_, ?_, ?_⟩
    · intro p
      rw [hsame (.ready p) (by simp)]
      exact hq.ready p
    · intro c p hc
      rw [hcond] at hc
      rw [hsame (.cond c p) fun p' heq => by cases heq; exact Nat.not_succ_le_self _ hc]
      exact hq.cond c p (Nat.le_of_succ_le hc)
    · intro i hi
      rw [hsame (.sem i) (by simp)]
      exact hq.sem i (hsem ▸ hi)
  · refine ⟨hbooked, ?_, ?_, ?_⟩
    · intro p
      rw [hsame (.ready p) (by simp)]
      exact hq.ready p
    · intro c p hc
      rw [hsame (.cond c p) (by simp)]
      exact hq.cond c p (hcond ▸ hc)
    · intro i hi
      rw [hsem] at hi
      rw [hsame (.sem i) fun heq => by cases heq; exact Nat.lt_irrefl _ hi]
      exact hq.sem i (Nat.lt_of_succ_lt hi)

end Step

section Start

variable {s : State}

/-- Before `t_start` there are no ready queues, and all queues are empty. -/
structure Unstarted (good : QRef → Prop) (fits : QRef → Tid → Prop) (s : State) : Prop where
  ledger : Ledger good fits (fun _ => none) s.store s.counter s.fresh s.hist
  ready : ∀ p, s.store.queues (.ready p) = none
  cond : ∀ c p, s.conditionID ≤ c → s.store.queues (.cond c p) = none
  sem : ∀ i, s.semaphoreID < i → s.store.queues (.sem i) = none

theorem Prepared.unstarted (h : Prepared s) : Unstarted good fits s := by
  refine h.invariant (fun cap => ?_) fun call a b ha hcall => ?_
  · refine ⟨⟨⟨?_, ?_, ?_, ?_⟩, fun _ _ => rfl, ?_, fun q _ => ?_⟩, fun _ => rfl,
      fun _ _ _ => rfl, fun _ _ => rfl⟩
    · simp [loaded]
    · simp [loaded]
    · simp [loaded]
    · simp
    · simp [loaded]
    · exact ⟨[], Or.inl ⟨rfl, rfl⟩, rfl, rfl⟩
  · cases call with
    | lock =>
      cases hcall
      exact ⟨ha.ledger, ha.ready, ha.cond, ha.sem⟩
    | cond lock =>
      simp only [mainCall, newCond, Option.bind_eq_bind, Option.bind_eq_some_iff,
        Option.some.injEq] at hcall
      obtain ⟨_, -, rfl⟩ := hcall
      refine ⟨(ha.ledger.condQueues 128 fun p => ha.cond _ p le_rfl).1, ?_, ?_, ?_⟩
      · intro p
        rw [condQueues_none (q := .ready p) 128 (by simp)]
        exact ha.ready p
      · intro c p hc
        have hne : ∀ p', QRef.cond c p ≠ .cond a.conditionID p' := by
          intro p' heq
          cases heq
          exact Nat.not_succ_le_self _ hc
        rw [condQueues_none 128 hne]
        exact ha.cond c p (Nat.le_of_succ_le hc)
      · intro i hi
        rw [condQueues_none (q := .sem i) 128 (by simp)]
        exact ha.sem i hi
    | sem count =>
      cases hcall
      have hother : ∀ r, r ≠ QRef.sem (a.semaphoreID + 1) →
          (newSem a count).store.queues r = a.store.queues r := fun r hr => qCreate_of_ne hr
      refine ⟨ha.ledger.create (ha.sem _ (Nat.lt_succ_self _)), ?_, ?_, ?_⟩
      · intro p
        rw [hother (.ready p) (by simp)]
        exact ha.ready p
      · intro c p hc
        rw [hother (.cond c p) (by simp)]
        exact ha.cond c p hc
      · intro i hi
        rw [hother (.sem i) fun heq => by cases heq; exact Nat.lt_irrefl _ hi]
        exact ha.sem i (Nat.lt_of_succ_lt hi)

theorem readyQueues_of_ne (n : ℕ) (hq : ∀ p, q ≠ .ready p) :
    (readyQueues store n).queues q = store.queues q := by
  induction n with
  | zero => rfl
  | succ n ih => rw [readyQueues, qCreate_of_ne (hq n), ih]

theorem Ledger.readyQueues (h : Ledger good fits owner store counter fresh hist) (n : ℕ)
    (hnone : ∀ p, store.queues (.ready p) = none) :
    Ledger good fits owner (readyQueues store n) counter fresh hist ∧
      ∀ p : ℤ, (Threads.readyQueues store n).queues (.ready p) = none ↔ ¬ (0 ≤ p ∧ p < n) := by
  induction n with
  | zero =>
    refine ⟨h, fun p => iff_of_true (hnone p) ?_⟩
    omega
  | succ n ih =>
    obtain ⟨hledger, hthere⟩ := ih
    refine ⟨hledger.create ((hthere n).mpr (by omega)), fun p => ?_⟩
    by_cases hpn : p = n
    · subst hpn
      refine iff_of_false (by simp [Threads.readyQueues, Store.qCreate]) ?_
      omega
    · rw [Threads.readyQueues, qCreate_of_ne (by simpa using hpn), hthere]
      omega

theorem Initial.mentions {f : Frame} (h : Initial s) (hf : s.Mentions f) : f = .sched := by
  obtain ⟨f', v, p, hb⟩ := h.begun
  rcases hf with hf | ⟨t, k, hk, -⟩
  · simpa [hb.stack] using hf
  · by_cases ht : t = 1
    · simp [hb.tcb, ht] at hk
    · simp [hb.tcb, Function.update_of_ne ht] at hk

theorem Initial.booked (h : Initial s) (hfits : ∀ p, (s.tcb 1).priority = p → fits (.ready p) 1) :
    Booked good fits s := by
  have hmentions : ∀ {f}, s.Mentions f → f = .sched := h.mentions
  obtain ⟨a, f, v, p, store, ha, -, hins, rfl⟩ := h.spec
  have hun : Unstarted good fits a := ha.unstarted
  obtain ⟨hledger, -⟩ := hun.ledger.readyQueues 128 hun.ready
  refine ⟨Function.update (fun _ => none) a.fresh (some (.ready p)), ?_, ?_⟩
  · refine (hledger.insert hins (hfits p (by simp))).forget fun r => ?_
    simp [insertedAt, removedAt, ha.created.hist]
  · intro pc i t p a hf
    cases hmentions hf

theorem Initial.queuesOk (h : Initial s) : QueuesOk good s := by
  have hbooked : Booked good (fun _ _ => True) s := h.booked fun _ _ => trivial
  obtain ⟨a, f, v, p, store, ha, -, hins, rfl⟩ := h.spec
  have hun : Unstarted good (fun _ _ => True) a := ha.unstarted
  obtain ⟨-, hthere⟩ := hun.ledger.readyQueues 128 hun.ready
  have hsame : ∀ q, store.queues q = none ↔ (readyQueues a.store 128).queues q = none :=
    fun q => qInsert_none hins
  refine ⟨hbooked, ?_, ?_, ?_⟩
  · intro p
    exact (hsame _).trans (hthere p)
  · intro c p hc
    exact (hsame _).mpr ((readyQueues_of_ne (q := .cond c p) 128 (by simp)).trans (hun.cond c p hc))
  · intro i hi
    exact (hsame _).mpr ((readyQueues_of_ne (q := .sem i) 128 (by simp)).trans (hun.sem i hi))

end Start

section Reading

variable {s : State}

/-- What a good queue holds, counted and compared with the history. -/
theorem QueuesOk.contents (h : QueuesOk good s) (hq : good q) :
    s.counter q = (s.contents q).length ∧
      insertedAt q s.hist = removedAt q s.hist ++ s.contents q := by
  obtain ⟨owner, hl, -⟩ := h.booked
  obtain ⟨xs, hchain, hcount, hhist⟩ := hl.queue q hq
  have hcontents : s.contents q = xs.map Prod.snd := hchain.contents_eq
  rw [hcontents]
  exact ⟨by rw [hcount, List.length_map], hhist⟩

/-- What is removed is the first of what a good queue holds. -/
theorem QueuesOk.head {store : Store QRef Tid} (h : QueuesOk good s) (hq : good q)
    (hrem : s.store.qRemove q = some (some t, store)) : ∃ rest, s.contents q = t :: rest := by
  obtain ⟨owner, hl, -⟩ := h.booked
  obtain ⟨xs, hchain, -, -⟩ := hl.queue q hq
  have hholds := hchain.holds (queue_of_qRemove hrem)
  cases xs with
  | nil => simp [Store.qRemove, hholds.record] at hrem
  | cons x rest =>
    obtain ⟨a, u⟩ := x
    obtain ⟨store', hrem', -⟩ := hholds.qRemove
    rw [hrem] at hrem'
    cases hrem'
    exact ⟨rest.map Prod.snd, hholds.contents_eq⟩

/-- What is in a queue is the object of a node made for it. -/
theorem Booked.fits_of_mem (h : Booked good fits s) (ht : t ∈ s.contents q) : fits q t := by
  obtain ⟨owner, hl, -⟩ := h
  obtain ⟨a, c, hc, ha, rfl⟩ := hl.owned.mem_contents ht
  exact hl.cell a c q hc ha

theorem QueuesOk.holds (h : QueuesOk good s) (hq : good q) (hthere : s.store.queues q ≠ none) :
    ∃ xs, Holds s.store q xs ∧ xs.map Prod.snd = s.contents q := by
  obtain ⟨owner, hl, -⟩ := h.booked
  obtain ⟨xs, hchain, -, -⟩ := hl.queue q hq
  exact ⟨xs, hchain.holds hthere, hchain.contents_eq.symm⟩

theorem QueuesOk.empty_of_count (h : QueuesOk good s) (hq : good q) (hzero : s.counter q = 0) :
    s.contents q = [] := by
  rw [(h.contents hq).1] at hzero
  exact List.length_eq_zero_iff.mp (Int.ofNat_eq_zero.mp hzero)

/-- A counter that is not 0 stands beside a queue that `q_is_empty` finds non-empty. -/
theorem QueuesOk.not_empty {b : Bool} (h : QueuesOk good s) (hq : good q)
    (hcount : s.counter q ≠ 0) (hempty : s.store.qIsEmpty q = some b) : b = false := by
  simp only [Store.qIsEmpty, Option.bind_eq_bind, Option.bind_eq_some_iff, Option.some.injEq]
    at hempty
  obtain ⟨Q, hQ, rfl⟩ := hempty
  obtain ⟨xs, hholds, hxs⟩ := h.holds hq (by simp [hQ])
  have hrecord := hholds.record
  rw [hQ] at hrecord
  cases hrecord
  rw [(h.contents hq).1, ← hxs, List.length_map] at hcount
  simpa using hcount

end Reading

end UserThreads.Threads
