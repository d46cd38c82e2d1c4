import UserThreads.LinkedCells
import Mathlib.Data.Int.Basic

/-!
The linked queues of `QUEUE.C`. A queue record counts its objects and points
at the first and the last node; `q_insert` is kept statement by statement,
because one caller runs it while the timer may fire. A queue is named by the
place its pointer is stored in, and all nodes live in one memory.

`Holds` says that a queue is well formed and which objects it holds, and
`Owned` that the pointers of a queue lead only to nodes made for that queue.
Together they give the FIFO behaviour of one queue and the frame of all others.
-/
namespace UserThreads.Queue

open LinkedCells

/-- `Queue_t` without its name, which is assumed to fit into `name[20]`. -/
structure QueueT where
  numObj : ℤ
  head : Option Addr
  tail : Option Addr
deriving DecidableEq

/-- The memory of nodes and the queues; a place that holds no queue is NULL. -/
structure Store (ι α : Type) where
  cells : Cells α
  queues : ι → Option QueueT

variable {ι α : Type}

namespace Store

variable [DecidableEq ι]

def qCreate (q : ι) (st : Store ι α) : Store ι α :=
  { st with queues := Function.update st.queues q (some ⟨0, none, none⟩) }

/-- Read the queue record through its pointer; NULL is not readable. -/
def onQueue (q : ι) (f : QueueT → QueueT) (st : Store ι α) : Option (Store ι α) := do
  let Q ← st.queues q
  some { st with queues := Function.update st.queues q (some (f Q)) }

/-- `newObj = malloc(...); newObj->obj = obj; newObj->next = NULL`, where
`malloc` answers with the address `a`, which must not be in use. -/
def newObj (a : Addr) (obj : α) (st : Store ι α) : Option (Store ι α) :=
  match st.cells a with
  | some _ => none
  | none => some { st with cells := Function.update st.cells a (some ⟨obj, none⟩) }

/-- `q->tail->next = newObj` -/
def setTailNext (q : ι) (a : Addr) (st : Store ι α) : Option (Store ι α) := do
  let Q ← st.queues q
  let b ← Q.tail
  let c ← st.cells b
  some { st with cells := Function.update st.cells b (some { c with next := some a }) }

/-- `q->tail = newObj` -/
def setTail (q : ι) (a : Addr) : Store ι α → Option (Store ι α) :=
  onQueue q fun Q => { Q with tail := some a }

/-- `q->head = newObj` -/
def setHead (q : ι) (a : Addr) : Store ι α → Option (Store ι α) :=
  onQueue q fun Q => { Q with head := some a }

/-- `q->numObj++` -/
def incNumObj (q : ι) : Store ι α → Option (Store ι α) :=
  onQueue q fun Q => { Q with numObj := Q.numObj + 1 }

/-- `if(q->tail)` -/
def hasTail (q : ι) (st : Store ι α) : Option Bool := do
  let Q ← st.queues q
  some Q.tail.isSome

/-- `if(!q->head)` -/
def noHead (q : ι) (st : Store ι α) : Option Bool := do
  let Q ← st.queues q
  some Q.head.isNone

/-- `if(q->tail) q->tail->next = newObj` -/
def linkTail (q : ι) (a : Addr) (st : Store ι α) : Option (Store ι α) := do
  let linked ← st.hasTail q
  if linked then st.setTailNext q a else some st

/-- `if(!q->head) q->head = newObj` -/
def linkHead (q : ι) (a : Addr) (st : Store ι α) : Option (Store ι α) := do
  let first ← st.noHead q
  if first then st.setHead q a else some st

/-- `q_insert`, with the address `malloc` answers. -/
def qInsert (q : ι) (a : Addr) (obj : α) (st : Store ι α) : Option (Store ι α) := do
  let st ← st.newObj a obj
  let st ← st.linkTail q a
  let st ← st.setTail q a
  let st ← st.linkHead q a
  st.incNumObj q

/-- `q_remove`. Reading `q->head->next` of an empty queue is not defined. The
object is `none` where the source reports a null head and returns NULL. -/
def qRemove (q : ι) (st : Store ι α) : Option (Option α × Store ι α) := do
  let Q ← st.queues q
  let temp ← Q.head
  let c ← st.cells temp
  let Q := { Q with head := c.next, numObj := Q.numObj - 1 }
  if Q.head.isNone ∧ Q.numObj ≠ 0 then
    some (none, { st with queues := Function.update st.queues q (some Q) })
  else
    let Q := if Q.head.isNone then { Q with tail := none } else Q
    some (some c.obj, { cells := Function.update st.cells temp none,
                        queues := Function.update st.queues q (some Q) })

/-- `q_is_empty` -/
def qIsEmpty (q : ι) (st : Store ι α) : Option Bool := do
  let Q ← st.queues q
  some (decide (Q.numObj = 0))

/-- The objects of a queue, read from the head for as many nodes as it counts. -/
def contents (st : Store ι α) (q : ι) : List α :=
  match st.queues q with
  | none => []
  | some Q => walk st.cells Q.numObj.toNat Q.head

end Store

open Store

/-- The queue `q` is a well-formed chain of exactly these nodes. -/
structure Holds (st : Store ι α) (q : ι) (xs : List (Addr × α)) : Prop where
  record : st.queues q = some ⟨xs.length, xs.head?.map Prod.fst, xs.getLast?.map Prod.fst⟩
  links : Links st.cells (xs.head?.map Prod.fst) xs

/-- The pointers of a queue lead only to nodes that were allocated for it.
`owner` remembers for which queue an address was allocated. -/
structure Owned (owner : Addr → Option ι) (st : Store ι α) : Prop where
  head : ∀ q Q a, st.queues q = some Q → Q.head = some a → owner a = some q
  tail : ∀ q Q a, st.queues q = some Q → Q.tail = some a → owner a = some q
  cell : ∀ a c, st.cells a = some c → ∃ q, owner a = some q
  next : ∀ a c b, st.cells a = some c → c.next = some b → owner b = owner a

/-- Nothing but queue `q` and the nodes made for it has changed. -/
structure OnlyAt (owner : Addr → Option ι) (q : ι) (st st' : Store ι α) : Prop where
  queues : ∀ r, r ≠ q → st'.queues r = st.queues r
  cells : ∀ a r, r ≠ q → owner a = some r → st'.cells a = st.cells a

section Frame

variable {owner : Addr → Option ι} {st st' : Store ι α} {q r : ι} {a : Addr}
  {xs : List (Addr × α)}

theorem Holds.contents_eq (h : Holds st q xs) : st.contents q = xs.map Prod.snd := by
  simp only [contents, h.record, Int.toNat_natCast]
  exact h.links.walk

theorem Holds.owner_of_mem (h : Holds st q xs) (ho : Owned owner st) :
    ∀ p ∈ xs, owner p.1 = some q := by
  apply h.links.closed (S := fun a => owner a = some q)
  · intro a ha
    exact ho.head q _ a h.record ha
  · intro a c b ha hcell hnext
    rw [ho.next a c b hcell hnext, ha]

theorem Owned.mem_contents {x : α} (ho : Owned owner st) (hx : x ∈ st.contents q) :
    ∃ a c, st.cells a = some c ∧ owner a = some q ∧ c.obj = x := by
  rw [contents] at hx
  split at hx
  · cases hx
  · rename_i Q hQ
    obtain ⟨a, c, ha, hc, hobj⟩ := mem_walk (S := fun a => owner a = some q) hx
      (fun a ha => ho.head q Q a hQ ha)
      (fun a c b ha hc hb => (ho.next a c b hc hb).trans ha)
    exact ⟨a, c, hc, ha, hobj⟩

/-- A well-formed queue is not disturbed by work on another queue. -/
theorem Holds.frame (h : Holds st r xs) (ho : Owned owner st) (hne : r ≠ q)
    (hat : OnlyAt owner q st st') : Holds st' r xs where
  record := (hat.queues r hne).trans h.record
  links := h.links.congr fun p hp => hat.cells p.1 r hne (h.owner_of_mem ho p hp)

theorem OnlyAt.refl (owner : Addr → Option ι) (q : ι) (st : Store ι α) :
    OnlyAt owner q st st :=
  ⟨fun _ _ => rfl, fun _ _ _ _ => rfl⟩

theorem OnlyAt.trans {st'' : Store ι α} (h : OnlyAt owner q st st')
    (h' : OnlyAt owner q st' st'') : OnlyAt owner q st st'' where
  queues r hr := (h'.queues r hr).trans (h.queues r hr)
  cells a r hr ha := (h'.cells a r hr ha).trans (h.cells a r hr ha)

theorem newObj_spec {obj : α} (h : st.newObj a obj = some st') :
    st.cells a = none ∧
      st' = { st with cells := Function.update st.cells a (some ⟨obj, none⟩) } := by
  rw [newObj] at h
  split at h
  · cases h
  · rename_i hfree
    cases h
    exact ⟨hfree, rfl⟩

theorem owner_extend {b : Addr} (hfresh : owner a = none) (hb : owner b = some r) :
    Function.update owner a (some q) b = some r := by
  rw [Function.update_of_ne, hb]
  intro heq
  subst heq
  rw [hfresh] at hb
  cases hb

/-- Giving an owner to an address that had none. -/
theorem Owned.extend (ho : Owned owner st) (hfresh : owner a = none) :
    Owned (Function.update owner a (some q)) st where
  head r R b hR hb := owner_extend hfresh (ho.head r R b hR hb)
  tail r R b hR hb := owner_extend hfresh (ho.tail r R b hR hb)
  cell b c hc := by
    obtain ⟨r, hr⟩ := ho.cell b c hc
    exact ⟨r, owner_extend hfresh hr⟩
  next b c d hc hd := by
    obtain ⟨r, hr⟩ := ho.cell b c hc
    rw [owner_extend hfresh hr, owner_extend hfresh ((ho.next b c d hc hd).trans hr)]

/-- A node of the queue may be overwritten if its new pointer is owned. -/
theorem Owned.setCell {x : Option (Cell α)} (ho : Owned owner st) (ha : owner a = some q)
    (hnext : ∀ c b, x = some c → c.next = some b → owner b = some q) :
    Owned owner { st with cells := Function.update st.cells a x } ∧
      OnlyAt owner q st { st with cells := Function.update st.cells a x } := by
  refine ⟨⟨ho.head, ho.tail, ?_, ?_⟩, ⟨fun _ _ => rfl, ?_⟩⟩
  · intro b c hc
    by_cases hb : b = a
    · subst b
      exact ⟨q, ha⟩
    · simp only [Function.update_of_ne hb] at hc
      exact ho.cell b c hc
  · intro b c d hc hd
    by_cases hb : b = a
    · subst b
      simp only [Function.update_self] at hc
      exact (hnext c d hc hd).trans ha.symm
    · simp only [Function.update_of_ne hb] at hc
      exact ho.next b c d hc hd
  · intro b r hr hb
    apply Function.update_of_ne
    intro heq
    subst heq
    rw [ha] at hb
    exact hr (Option.some.inj hb).symm

/-- An address never allocated before is from now on owned by the queue the
node is made for. -/
theorem Owned.newObj {obj : α} (ho : Owned owner st) (hfresh : owner a = none)
    (h : st.newObj a obj = some st') :
    Owned (Function.update owner a (some q)) st' ∧
      OnlyAt (Function.update owner a (some q)) q st st' := by
  obtain ⟨-, rfl⟩ := newObj_spec h
  apply (ho.extend hfresh).setCell (Function.update_self ..)
  intro c b hc hb
  cases hc
  cases hb

theorem setTailNext_spec (h : st.setTailNext q a = some st') :
    ∃ Q b c, st.queues q = some Q ∧ Q.tail = some b ∧ st.cells b = some c ∧
      st' = { st with cells := Function.update st.cells b (some { c with next := some a }) } := by
  simp only [setTailNext, Option.bind_eq_bind, Option.bind_eq_some_iff, Option.some.injEq] at h
  obtain ⟨Q, hQ, b, hb, c, hc, rfl⟩ := h
  exact ⟨Q, b, c, hQ, hb, hc, rfl⟩

theorem newObj_obj {obj : α} {b : Addr} {c : Cell α} (h : st.newObj a obj = some st')
    (hc : st'.cells b = some c) : b = a ∧ c.obj = obj ∨ st.cells b = some c := by
  obtain ⟨-, rfl⟩ := newObj_spec h
  by_cases hb : b = a
  · simp only [hb, Function.update_self, Option.some.injEq] at hc
    exact Or.inl ⟨hb, hc ▸ rfl⟩
  · simp only [Function.update_of_ne hb] at hc
    exact Or.inr hc

theorem setTailNext_obj {b : Addr} {c : Cell α} (h : st.setTailNext q a = some st')
    (hc : st'.cells b = some c) : ∃ c', st.cells b = some c' ∧ c'.obj = c.obj := by
  obtain ⟨Q, d, e, -, -, he, rfl⟩ := setTailNext_spec h
  by_cases hb : b = d
  · simp only [hb, Function.update_self, Option.some.injEq] at hc
    exact ⟨e, hb ▸ he, hc ▸ rfl⟩
  · simp only [Function.update_of_ne hb] at hc
    exact ⟨c, hc, rfl⟩

theorem Owned.setTailNext (ho : Owned owner st) (ha : owner a = some q)
    (h : st.setTailNext q a = some st') : Owned owner st' ∧ OnlyAt owner q st st' := by
  obtain ⟨Q, b, c, hQ, htail, hc, rfl⟩ := setTailNext_spec h
  apply ho.setCell (ho.tail q Q b hQ htail)
  intro c' d hc' hd
  cases hc'
  cases hd
  exact ha

theorem Owned.linkTail (ho : Owned owner st) (ha : owner a = some q)
    (h : st.linkTail q a = some st') : Owned owner st' ∧ OnlyAt owner q st st' := by
  simp only [Store.linkTail, Option.bind_eq_bind, Option.bind_eq_some_iff] at h
  obtain ⟨linked, -, h⟩ := h
  cases linked with
  | true => exact ho.setTailNext ha h
  | false => cases h; exact ⟨ho, OnlyAt.refl ..⟩

variable [DecidableEq ι]

theorem onQueue_spec {f : QueueT → QueueT} (h : onQueue q f st = some st') :
    ∃ Q, st.queues q = some Q ∧
      st' = { st with queues := Function.update st.queues q (some (f Q)) } := by
  simp only [onQueue, Option.bind_eq_bind, Option.bind_eq_some_iff, Option.some.injEq] at h
  obtain ⟨Q, hQ, rfl⟩ := h
  exact ⟨Q, hQ, rfl⟩

/-- Work on a queue neither makes nor removes one. -/
theorem onQueue_none {f : QueueT → QueueT} (h : onQueue q f st = some st') :
    st'.queues r = none ↔ st.queues r = none := by
  obtain ⟨Q, hQ, rfl⟩ := onQueue_spec h
  by_cases hr : r = q
  · subst r
    simp [hQ]
  · simp [Function.update_of_ne hr]

/-- A queue record may be overwritten if its new pointers are owned. -/
theorem Owned.setRecord {Q : QueueT} (ho : Owned owner st)
    (hhead : ∀ b, Q.head = some b → owner b = some q)
    (htail : ∀ b, Q.tail = some b → owner b = some q) :
    Owned owner { st with queues := Function.update st.queues q (some Q) } ∧
      OnlyAt owner q st { st with queues := Function.update st.queues q (some Q) } := by
  refine ⟨⟨?_, ?_, ho.cell, ho.next⟩, ⟨?_, fun _ _ _ _ => rfl⟩⟩
  · intro r R b hR hb
    by_cases hr : r = q
    · subst r
      simp only [Function.update_self, Option.some.injEq] at hR
      subst R
      exact hhead b hb
    · simp only [Function.update_of_ne hr] at hR
      exact ho.head r R b hR hb
  · intro r R b hR hb
    by_cases hr : r = q
    · subst r
      simp only [Function.update_self, Option.some.injEq] at hR
      subst R
      exact htail b hb
    · simp only [Function.update_of_ne hr] at hR
      exact ho.tail r R b hR hb
  · intro r hr
    exact Function.update_of_ne hr ..

/-- Updating a queue record is safe when its new pointers are owned. -/
theorem Owned.onQueue {f : QueueT → QueueT} (ho : Owned owner st)
    (h : st.onQueue q f = some st')
    (hhead : ∀ Q b, (f Q).head = some b → Q.head = some b ∨ owner b = some q)
    (htail : ∀ Q b, (f Q).tail = some b → Q.tail = some b ∨ owner b = some q) :
    Owned owner st' ∧ OnlyAt owner q st st' := by
  obtain ⟨Q, hQ, rfl⟩ := onQueue_spec h
  apply ho.setRecord
  · intro b hb
    exact (hhead Q b hb).elim (ho.head q Q b hQ) id
  · intro b hb
    exact (htail Q b hb).elim (ho.tail q Q b hQ) id

theorem Owned.setTail (ho : Owned owner st) (ha : owner a = some q)
    (h : st.setTail q a = some st') : Owned owner st' ∧ OnlyAt owner q st st' :=
  ho.onQueue h (fun _ _ hb => Or.inl hb) (fun _ _ hb => Or.inr (by cases hb; exact ha))

theorem Owned.setHead (ho : Owned owner st) (ha : owner a = some q)
    (h : st.setHead q a = some st') : Owned owner st' ∧ OnlyAt owner q st st' :=
  ho.onQueue h (fun _ _ hb => Or.inr (by cases hb; exact ha)) (fun _ _ hb => Or.inl hb)

theorem Owned.incNumObj (ho : Owned owner st) (h : st.incNumObj q = some st') :
    Owned owner st' ∧ OnlyAt owner q st st' :=
  ho.onQueue h (fun _ _ hb => Or.inl hb) (fun _ _ hb => Or.inl hb)

theorem Owned.linkHead (ho : Owned owner st) (ha : owner a = some q)
    (h : st.linkHead q a = some st') : Owned owner st' ∧ OnlyAt owner q st st' := by
  simp only [Store.linkHead, Option.bind_eq_bind, Option.bind_eq_some_iff] at h
  obtain ⟨first, -, h⟩ := h
  cases first with
  | true => exact ho.setHead ha h
  | false => cases h; exact ⟨ho, OnlyAt.refl ..⟩

theorem qCreate_of_ne (h : r ≠ q) : (st.qCreate q).queues r = st.queues r :=
  Function.update_of_ne h ..

theorem Owned.qCreate (ho : Owned owner st) :
    Owned owner (st.qCreate q) ∧ OnlyAt owner q st (st.qCreate q) := by
  apply ho.setRecord <;> intro b hb <;> cases hb

theorem Holds.qCreate : Holds (st.qCreate q) q [] where
  record := by simp [Store.qCreate]
  links := rfl

end Frame

section Fifo

variable [DecidableEq ι] {owner : Addr → Option ι} {st st' : Store ι α} {q : ι} {a : Addr}
  {obj : α} {xs : List (Addr × α)}

theorem qInsert_none {r : ι} (h : st.qInsert q a obj = some st') :
    st'.queues r = none ↔ st.queues r = none := by
  simp only [Store.qInsert, Option.bind_eq_bind, Option.bind_eq_some_iff, Store.linkTail,
    Store.linkHead] at h
  obtain ⟨st₁, h₁, st₂, ⟨linked, -, h₂⟩, st₃, h₃, st₄, ⟨first, -, h₄⟩, h₅⟩ := h
  have hnew : st₁.queues = st.queues := by
    obtain ⟨-, rfl⟩ := newObj_spec h₁
    rfl
  have hlink : st₂.queues = st₁.queues := by
    split at h₂
    · obtain ⟨Q, b, c, -, -, -, rfl⟩ := setTailNext_spec h₂
      rfl
    · cases h₂
      rfl
  have hhead : st₄.queues r = none ↔ st₃.queues r = none := by
    split at h₄
    · exact onQueue_none h₄
    · cases h₄
      rfl
  rw [onQueue_none h₅, hhead, onQueue_none h₃, hlink, hnew]

theorem qRemove_none {r : ι} {x : Option α} (h : st.qRemove q = some (x, st')) :
    st'.queues r = none ↔ st.queues r = none := by
  simp only [Store.qRemove, Option.bind_eq_bind, Option.bind_eq_some_iff] at h
  obtain ⟨Q, hQ, a, -, c, -, h⟩ := h
  by_cases hr : r = q
  · subst r
    split at h <;> cases h <;> simp [hQ]
  · split at h <;> cases h <;> simp [Function.update_of_ne hr]

/-- The objects in memory after an insertion: the new one and the old ones. -/
theorem qInsert_obj {b : Addr} {c : Cell α} (h : st.qInsert q a obj = some st')
    (hc : st'.cells b = some c) :
    b = a ∧ c.obj = obj ∨ ∃ c', st.cells b = some c' ∧ c'.obj = c.obj := by
  simp only [Store.qInsert, Option.bind_eq_bind, Option.bind_eq_some_iff, Store.linkTail,
    Store.linkHead] at h
  obtain ⟨st₁, h₁, st₂, ⟨linked, -, h₂⟩, st₃, h₃, st₄, ⟨first, -, h₄⟩, h₅⟩ := h
  have hlate : st'.cells = st₂.cells := by
    obtain ⟨-, -, rfl⟩ := onQueue_spec h₅
    split at h₄
    · obtain ⟨-, -, rfl⟩ := onQueue_spec h₄
      obtain ⟨-, -, rfl⟩ := onQueue_spec h₃
      rfl
    · cases h₄
      obtain ⟨-, -, rfl⟩ := onQueue_spec h₃
      rfl
  rw [hlate] at hc
  have hlink : ∃ c', st₁.cells b = some c' ∧ c'.obj = c.obj := by
    split at h₂
    · exact setTailNext_obj h₂ hc
    · cases h₂
      exact ⟨c, hc, rfl⟩
  obtain ⟨c', hc', hobj⟩ := hlink
  rcases newObj_obj h₁ hc' with ⟨hb, hnew⟩ | hold
  · exact Or.inl ⟨hb, hobj ▸ hnew⟩
  · exact Or.inr ⟨c', hold, hobj⟩

theorem qRemove_obj {x : Option α} {b : Addr} {c : Cell α} (h : st.qRemove q = some (x, st'))
    (hc : st'.cells b = some c) : st.cells b = some c := by
  simp only [Store.qRemove, Option.bind_eq_bind, Option.bind_eq_some_iff] at h
  obtain ⟨Q, -, temp, -, d, -, h⟩ := h
  split at h
  · cases h
    exact hc
  · cases h
    by_cases hb : b = temp
    · simp [hb] at hc
    · simpa only [Function.update_of_ne hb] using hc

/-- What is removed is the object of a node made for the queue. -/
theorem Owned.removed (ho : Owned owner st) (h : st.qRemove q = some (some obj, st')) :
    ∃ b c, st.cells b = some c ∧ owner b = some q ∧ c.obj = obj := by
  simp only [Store.qRemove, Option.bind_eq_bind, Option.bind_eq_some_iff] at h
  obtain ⟨Q, hQ, temp, htemp, d, hd, h⟩ := h
  split at h <;> cases h
  exact ⟨temp, d, hd, ho.head q Q temp hQ htemp, rfl⟩

theorem Owned.qInsert (ho : Owned owner st) (hfresh : owner a = none)
    (h : st.qInsert q a obj = some st') :
    Owned (Function.update owner a (some q)) st' ∧
      OnlyAt (Function.update owner a (some q)) q st st' := by
  simp only [Store.qInsert, Option.bind_eq_bind, Option.bind_eq_some_iff] at h
  obtain ⟨st₁, h₁, st₂, h₂, st₃, h₃, st₄, h₄, h₅⟩ := h
  have ha : Function.update owner a (some q) a = some q := Function.update_self ..
  obtain ⟨ho₁, hat₁⟩ := ho.newObj (q := q) hfresh h₁
  obtain ⟨ho₂, hat₂⟩ := ho₁.linkTail ha h₂
  obtain ⟨ho₃, hat₃⟩ := ho₂.setTail ha h₃
  obtain ⟨ho₄, hat₄⟩ := ho₃.linkHead ha h₄
  obtain ⟨ho₅, hat₅⟩ := ho₄.incNumObj h₅
  exact ⟨ho₅, (((hat₁.trans hat₂).trans hat₃).trans hat₄).trans hat₅⟩

/-- On a well-formed queue and unused memory `q_insert` succeeds and appends. -/
theorem Holds.qInsert (h : Holds st q xs) (hfree : st.cells a = none) (obj : α) :
    ∃ st', st.qInsert q a obj = some st' ∧ Holds st' q (xs ++ [(a, obj)]) := by
  have hrec := h.record
  rcases List.eq_nil_or_concat xs with rfl | ⟨pre, ⟨b, y⟩, rfl⟩
  · have hempty : st.queues q = some ⟨0, none, none⟩ := by simpa using hrec
    simp only [Store.qInsert, Store.newObj, hfree, Option.bind_eq_bind, Option.bind_some,
      Store.linkTail, Store.hasTail, hempty, Option.isSome_none, Bool.false_eq_true, if_false,
      Store.setTail, Store.onQueue, Store.linkHead, Store.noHead, Function.update_self,
      Option.isNone_none, if_true, Store.setHead, Store.incNumObj]
    exact ⟨_, rfl, by simp, by simp [Links]⟩
  · rw [List.concat_eq_append] at h hrec ⊢
    have hlast : st.queues q = some ⟨(pre.length : ℤ) + 1,
        (pre ++ [(b, y)]).head?.map Prod.fst, some b⟩ := by
      simpa using hrec
    have hhead : ((pre ++ [(b, y)]).head?.map Prod.fst).isNone = false := by
      cases pre <;> rfl
    obtain ⟨n, hb, hn⟩ := h.links.suffix.2
    have hn : n = none := hn
    subst n
    have hne : b ≠ a := by
      intro heq
      subst heq
      rw [hfree] at hb
      cases hb
    have hpre : ∀ p ∈ pre, p.1 ≠ a ∧ p.1 ≠ b := by
      intro p hp
      obtain ⟨m, hm⟩ := h.links.cell_of_mem (List.mem_append_left _ hp)
      refine ⟨?_, ?_⟩
      · intro hpa
        rw [hpa, hfree] at hm
        cases hm
      · intro hpb
        have hnd := h.links.nodup
        rw [List.map_append, List.nodup_append] at hnd
        exact hnd.2.2 p.1 (List.mem_map_of_mem hp) b (by simp) hpb
    simp only [Store.qInsert, Store.newObj, hfree, Option.bind_eq_bind, Option.bind_some,
      Store.linkTail, Store.hasTail, hlast, Option.isSome_some, if_true, Store.setTailNext,
      Function.update_of_ne hne, hb, Store.setTail, Store.onQueue, Store.linkHead, Store.noHead,
      Function.update_self, hhead, Bool.false_eq_true, if_false, Store.incNumObj]
    refine ⟨_, rfl, ?_, ?_⟩
    · have hlen : ((pre ++ [(b, y)] ++ [(a, obj)]).length : ℤ) = (pre.length : ℤ) + 1 + 1 := by
        simp only [List.length_append, List.length_singleton]
        omega
      have hfst : (pre ++ [(b, y)] ++ [(a, obj)]).head? = (pre ++ [(b, y)]).head? := by
        simp [List.head?_append]
      rw [hlen, hfst, List.getLast?_append]
      simp
    · have hsnoc : Links (Function.update (Function.update st.cells a (some ⟨obj, none⟩)) b
          (some ⟨y, some a⟩)) ((pre ++ [(b, y)]).head?.map Prod.fst)
          (pre ++ [(b, y), (a, obj)]) := by
        refine h.links.snoc (fun p hp => ?_) (Function.update_self ..) ?_
        · rw [Function.update_of_ne (hpre p hp).2, Function.update_of_ne (hpre p hp).1]
        · rw [Function.update_of_ne hne.symm, Function.update_self]
      rw [List.append_assoc]
      simpa [List.head?_append] using hsnoc

/-- On a well-formed queue that is not empty `q_remove` succeeds, returns the
first object and leaves the rest; it never takes its error branch. -/
theorem Holds.qRemove {x : α} (h : Holds st q ((a, x) :: xs)) :
    ∃ st', st.qRemove q = some (some x, st') ∧ Holds st' q xs := by
  have hrec : st.queues q = some ⟨(xs.length : ℤ) + 1, some a,
      ((a, x) :: xs).getLast?.map Prod.fst⟩ := by
    simpa using h.record
  obtain ⟨-, n, ha, hrest⟩ := h.links
  have hn := hrest.head
  have hnot : ∀ p ∈ xs, p.1 ≠ a := by
    have hnd := h.links.nodup
    rw [List.map_cons, List.nodup_cons] at hnd
    intro p hp hpa
    exact hnd.1 (List.mem_map.mpr ⟨p, hp, hpa⟩)
  have hrest' : Links (Function.update st.cells a none) n xs :=
    hrest.congr fun p hp => Function.update_of_ne (hnot p hp) ..
  simp only [Store.qRemove, hrec, Option.bind_eq_bind, Option.bind_some, ha]
  cases xs with
  | nil =>
    have hnil : n = none := hn
    subst n
    exact ⟨_, rfl, by simp, by simpa using hrest'⟩
  | cons p rest =>
    have hsome : n = some p.1 := hn
    subst n
    exact ⟨_, rfl, by simp, by simpa using hrest'⟩

theorem Owned.qRemove {x : Option α} (ho : Owned owner st)
    (h : st.qRemove q = some (x, st')) : Owned owner st' ∧ OnlyAt owner q st st' := by
  simp only [Store.qRemove, Option.bind_eq_bind, Option.bind_eq_some_iff] at h
  obtain ⟨Q, hQ, a, ha, c, hc, h⟩ := h
  have howner : owner a = some q := ho.head q Q a hQ ha
  have hhead : ∀ b, c.next = some b → owner b = some q := fun b hb =>
    (ho.next a c b hc hb).trans howner
  split at h
  · cases h
    exact ho.setRecord hhead fun b hb => ho.tail q Q b hQ hb
  · cases h
    obtain ⟨hfreed, hat⟩ := ho.setCell (x := none) howner (fun c b hc => by cases hc)
    obtain ⟨hremoved, hat'⟩ := hfreed.setRecord (q := q)
      (Q := if c.next.isNone then ⟨Q.numObj - 1, c.next, none⟩ else ⟨Q.numObj - 1, c.next, Q.tail⟩)
      (fun b hb => hhead b (by split at hb <;> exact hb))
      (fun b hb => by
        split at hb
        · cases hb
        · exact ho.tail q Q b hQ hb)
    exact ⟨hremoved, hat.trans hat'⟩

end Fifo

end UserThreads.Queue
