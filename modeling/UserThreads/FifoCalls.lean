import UserThreads.Queue

/-!
The queues as a client sees them, over any calls of `q_create`, `q_insert` and
`q_remove` in which `q_remove` is called on a queue that is not empty. `malloc`
may answer with any address that is not in use, also one that was freed. The
queues are separate chains that contain all the nodes there are, and what the
calls return is what lists return to which one appends at the end and from which
one takes at the front.
-/
namespace UserThreads.Queue

open LinkedCells Store

/-- A call, with the queue and the address that `malloc` answers. -/
inductive Call (ι α : Type)
  | create (q : ι)
  | insert (q : ι) (a : Addr) (obj : α)
  | remove (q : ι)
deriving DecidableEq

/-- The lists of the queues that have been made. -/
abbrev Fifos (ι α : Type) := ι → Option (List α)

variable {ι α : Type}

/-- Before the first call. -/
def Store.empty : Store ι α := ⟨fun _ => none, fun _ => none⟩

/-- The queues are well formed, have no node in common and contain all nodes. -/
structure Chained (st : Store ι α) (chains : ι → Option (List (Addr × α))) : Prop where
  holds : ∀ q xs, chains q = some xs → Holds st q xs
  unmade : ∀ q, chains q = none → st.queues q = none
  separate : ∀ q r xs ys, chains q = some xs → chains r = some ys → q ≠ r →
    ∀ x ∈ xs, ∀ y ∈ ys, x.1 ≠ y.1
  covered : ∀ a c, st.cells a = some c → ∃ q xs, chains q = some xs ∧ ∃ x ∈ xs, x.1 = a

/-- The chains hold the objects of the lists. -/
def Represents (st : Store ι α) (lists : Fifos ι α) : Prop :=
  ∃ chains, Chained st chains ∧ ∀ q, lists q = (chains q).map (List.map Prod.snd)

variable {st st' : Store ι α} {chains : ι → Option (List (Addr × α))} {q r : ι} {a : Addr}
  {obj : α} {xs : List (Addr × α)} {c : Call ι α} {calls : List (Call ι α)} {lists : Fifos ι α}

theorem Chained.made (h : Chained st chains) (hq : st.queues q ≠ none) :
    ∃ xs, chains q = some xs ∧ Holds st q xs := by
  cases hxs : chains q with
  | none => exact absurd (h.unmade q hxs) hq
  | some xs => exact ⟨xs, rfl, h.holds q xs hxs⟩

/-- A queue that is not empty has a first node. -/
theorem Chained.not_empty (h : Chained st chains) (hq : st.qIsEmpty q = some false) :
    ∃ x xs, chains q = some (x :: xs) := by
  simp only [Store.qIsEmpty, Option.bind_eq_bind, Option.bind_eq_some_iff, Option.some.injEq,
    decide_eq_false_iff_not] at hq
  obtain ⟨Q, hQ, hne⟩ := hq
  obtain ⟨xs, hxs, hholds⟩ := h.made (q := q) (by simp [hQ])
  have hrecord := hholds.record
  rw [hQ] at hrecord
  cases hrecord
  cases xs with
  | nil => exact absurd rfl hne
  | cons x xs => exact ⟨x, xs, hxs⟩

theorem represents_empty : Represents (Store.empty : Store ι α) fun _ => none :=
  ⟨fun _ => none, ⟨by simp, fun _ _ => rfl, by simp, by simp [Store.empty]⟩, fun _ => rfl⟩

/-- What the representation says of one queue. -/
theorem Represents.queue {xs : List α} (h : Represents st lists) (hq : lists q = some xs) :
    ∃ Q nodes, st.queues q = some Q ∧ nodes.map Prod.snd = xs ∧ Links st.cells Q.head nodes ∧
      Q.numObj = nodes.length ∧ Q.tail = nodes.getLast?.map Prod.fst ∧
      (Q.head = none ↔ Q.tail = none) ∧ (Q.tail = none ↔ Q.numObj = 0) ∧
      ∀ x ∈ nodes, st.cells x.1 ≠ none := by
  obtain ⟨chains, hch, hlists⟩ := h
  rw [hlists] at hq
  obtain ⟨nodes, hnodes, rfl⟩ := Option.map_eq_some_iff.mp hq
  have hholds := hch.holds q nodes hnodes
  refine ⟨_, nodes, hholds.record, rfl, hholds.links, rfl, rfl, ?_, ?_, fun x hx => ?_⟩
  · simp
  · simp
  · obtain ⟨n, hcell⟩ := hholds.links.cell_of_mem hx
    simp [hcell]

theorem Represents.contents_eq (h : Represents st lists) (q : ι) :
    st.contents q = (lists q).getD [] := by
  obtain ⟨chains, hch, hlists⟩ := h
  rw [hlists]
  cases hxs : chains q with
  | none => simp [Store.contents, hch.unmade q hxs]
  | some xs => exact (hch.holds q xs hxs).contents_eq

variable [DecidableEq ι]

namespace Call

/-- The queue of the call. -/
def queue : Call ι α → ι
  | .create q | .insert q _ _ | .remove q => q

/-- What the call returns and leaves; only `q_remove` returns an object. -/
def serve (st : Store ι α) : Call ι α → Option (Option α × Store ι α)
  | .create q => some (none, st.qCreate q)
  | .insert q a obj => (st.qInsert q a obj).map fun st' => (none, st')
  | .remove q => st.qRemove q

/-- The call is made on a queue of `q_create`, the address is not in use, and nothing is
removed from an empty queue. -/
def Permitted (st : Store ι α) : Call ι α → Prop
  | .create q => st.queues q = none
  | .insert q a _ => st.queues q ≠ none ∧ st.cells a = none
  | .remove q => st.qIsEmpty q = some false

/-- The same call on the lists. -/
def fifo (lists : Fifos ι α) : Call ι α → Option α × Fifos ι α
  | .create q => (none, Function.update lists q (some []))
  | .insert q _ obj => (none, Function.update lists q ((lists q).map (· ++ [obj])))
  | .remove q => ((lists q).bind List.head?, Function.update lists q ((lists q).map List.tail))

def inserted (q : ι) : Call ι α → Option α
  | .insert r _ obj => if r = q then some obj else none
  | _ => none

/-- The object that a call on the queue returned. -/
def removed (q : ι) : Call ι α × Option α → Option α
  | (.remove r, x) => if r = q then x else none
  | _ => none

end Call

/-- Make the calls in order; what they return and leave. -/
def serveAll : List (Call ι α) → Store ι α → Option (List (Option α) × Store ι α)
  | [], st => some ([], st)
  | c :: calls, st => do
    let (x, st) ← c.serve st
    let (xs, st) ← serveAll calls st
    some (x :: xs, st)

def fifoAll : List (Call ι α) → Fifos ι α → List (Option α) × Fifos ι α
  | [], lists => ([], lists)
  | c :: calls, lists =>
    let (x, lists) := c.fifo lists
    let (xs, lists) := fifoAll calls lists
    (x :: xs, lists)

/-- Each call is permitted where it is made. -/
def PermittedAll : List (Call ι α) → Store ι α → Prop
  | [], _ => True
  | c :: calls, st => c.Permitted st ∧
    match c.serve st with
    | none => True
    | some (_, st') => PermittedAll calls st'

/-- The owner of a node is the queue whose chain it is in. -/
theorem Chained.owned (h : Chained st chains) :
    ∃ owner, Owned owner st ∧ ∀ a, st.cells a = none → owner a = none := by
  classical
  let owner : Addr → Option ι := fun a =>
    if hq : ∃ q xs, chains q = some xs ∧ ∃ x ∈ xs, x.1 = a then some hq.choose else none
  have howner : ∀ q xs x, chains q = some xs → x ∈ xs → owner x.1 = some q := by
    intro q xs x hxs hx
    have hex : ∃ q xs, chains q = some xs ∧ ∃ y ∈ xs, y.1 = x.1 := ⟨q, xs, hxs, x, hx, rfl⟩
    obtain ⟨ys, hys, y, hy, heq⟩ := hex.choose_spec
    have hsame : hex.choose = q := by
      by_contra hne
      exact h.separate _ _ _ _ hys hxs hne y hy x hx heq
    simp only [owner, dif_pos hex, hsame]
  refine ⟨owner, ⟨?_, ?_, ?_, ?_⟩, ?_⟩
  · intro q Q a hQ ha
    obtain ⟨xs, hxs, hholds⟩ := h.made (q := q) (by simp [hQ])
    have hrecord := hholds.record
    rw [hQ] at hrecord
    cases hrecord
    obtain ⟨x, hx, rfl⟩ := Option.map_eq_some_iff.mp ha
    exact howner q xs x hxs (List.mem_of_mem_head? hx)
  · intro q Q a hQ ha
    obtain ⟨xs, hxs, hholds⟩ := h.made (q := q) (by simp [hQ])
    have hrecord := hholds.record
    rw [hQ] at hrecord
    cases hrecord
    obtain ⟨x, hx, rfl⟩ := Option.map_eq_some_iff.mp ha
    exact howner q xs x hxs (List.mem_of_mem_getLast? hx)
  · intro a cell hcell
    obtain ⟨q, xs, hxs, x, hx, rfl⟩ := h.covered a cell hcell
    exact ⟨q, howner q xs x hxs hx⟩
  · intro a cell b hcell hb
    obtain ⟨q, xs, hxs, x, hx, rfl⟩ := h.covered a cell hcell
    obtain ⟨y, hy, rfl⟩ := (h.holds q xs hxs).links.next_mem hx hcell hb
    rw [howner q xs x hxs hx, howner q xs y hxs hy]
  · intro a hfree
    refine dif_neg fun hex => ?_
    obtain ⟨q, xs, hxs, x, hx, rfl⟩ := hex
    obtain ⟨n, hcell⟩ := (h.holds q xs hxs).links.cell_of_mem hx
    rw [hfree] at hcell
    cases hcell

/-- Removing frees the first node. -/
theorem qRemove_freed {Q : QueueT} (h : st.qRemove q = some (some obj, st'))
    (hQ : st.queues q = some Q) (ha : Q.head = some a) : st'.cells a = none := by
  simp only [Store.qRemove, hQ, ha, Option.bind_eq_bind, Option.bind_some,
    Option.bind_eq_some_iff] at h
  obtain ⟨cell, -, h⟩ := h
  split at h <;> cases h
  exact Function.update_self ..

/-- Work on one queue that leaves there the chain `ys` leaves all others as they are. -/
theorem Chained.update {owner : Addr → Option ι} {ys : List (Addr × α)} (h : Chained st chains)
    (ho : Owned owner st) (hat : OnlyAt owner q st st') (hholds : Holds st' q ys)
    (hsep : ∀ r zs, chains r = some zs → q ≠ r → ∀ y ∈ ys, ∀ z ∈ zs, y.1 ≠ z.1)
    (hcov : ∀ b cell, st'.cells b = some cell → (∃ y ∈ ys, y.1 = b) ∨
      ∃ r xs, r ≠ q ∧ chains r = some xs ∧ ∃ x ∈ xs, x.1 = b) :
    Chained st' (Function.update chains q (some ys)) where
  holds r zs hzs := by
    by_cases hr : r = q
    · subst hr
      rw [Function.update_self] at hzs
      exact Option.some.inj hzs ▸ hholds
    · rw [Function.update_of_ne hr] at hzs
      exact (h.holds r zs hzs).frame ho hr hat
  unmade r hr := by
    have hne : r ≠ q := by
      rintro rfl
      simp at hr
    rw [Function.update_of_ne hne] at hr
    rw [hat.queues r hne]
    exact h.unmade r hr
  separate r r' zs zs' hzs hzs' hne := by
    by_cases hr : r = q
    · subst hr
      rw [Function.update_self] at hzs
      rw [Function.update_of_ne (Ne.symm hne)] at hzs'
      exact Option.some.inj hzs ▸ hsep r' zs' hzs' hne
    · rw [Function.update_of_ne hr] at hzs
      by_cases hr' : r' = q
      · subst hr'
        rw [Function.update_self] at hzs'
        obtain rfl := Option.some.inj hzs'
        exact fun x hx y hy => (hsep r zs hzs (Ne.symm hne) y hy x hx).symm
      · rw [Function.update_of_ne hr'] at hzs'
        exact h.separate r r' zs zs' hzs hzs' hne
  covered b cell hcell := by
    rcases hcov b cell hcell with hy | ⟨r, xs, hr, hxs, hx⟩
    · exact ⟨q, ys, Function.update_self .., hy⟩
    · exact ⟨r, xs, (Function.update_of_ne hr ..).trans hxs, hx⟩

theorem Chained.qCreate (h : Chained st chains) (hq : st.queues q = none) :
    Chained (st.qCreate q) (Function.update chains q (some [])) := by
  obtain ⟨owner, ho, -⟩ := h.owned
  refine h.update ho ho.qCreate.2 Holds.qCreate (by simp) fun b cell hcell => Or.inr ?_
  obtain ⟨r, xs, hxs, hx⟩ := h.covered b cell hcell
  refine ⟨r, xs, ?_, hxs, hx⟩
  rintro rfl
  have hrecord := (h.holds r xs hxs).record
  rw [hq] at hrecord
  cases hrecord

theorem Chained.qInsert (h : Chained st chains) (hxs : chains q = some xs)
    (hfree : st.cells a = none) (obj : α) :
    ∃ st', st.qInsert q a obj = some st' ∧
      Chained st' (Function.update chains q (some (xs ++ [(a, obj)]))) := by
  obtain ⟨st', hins, hholds⟩ := (h.holds q xs hxs).qInsert hfree obj
  obtain ⟨owner, ho, hfresh⟩ := h.owned
  obtain ⟨-, hat⟩ := ho.qInsert (hfresh a hfree) hins
  refine ⟨st', hins, h.update (ho.extend (hfresh a hfree)) hat hholds ?_ ?_⟩
  · intro r zs hzs hne y hy z hz
    rcases List.mem_append.mp hy with hy | hy
    · exact h.separate q r xs zs hxs hzs hne y hy z hz
    · obtain rfl := List.mem_singleton.mp hy
      obtain ⟨n, hcell⟩ := (h.holds r zs hzs).links.cell_of_mem hz
      rintro heq
      rw [← heq, hfree] at hcell
      cases hcell
  · intro b cell hcell
    rcases qInsert_obj hins hcell with ⟨rfl, -⟩ | ⟨cell', hcell', -⟩
    · exact Or.inl ⟨(b, obj), by simp, rfl⟩
    · obtain ⟨r, zs, hzs, x, hx, hb⟩ := h.covered b cell' hcell'
      by_cases hr : r = q
      · subst hr
        obtain rfl := Option.some.inj (hxs.symm.trans hzs)
        exact Or.inl ⟨x, List.mem_append_left _ hx, hb⟩
      · exact Or.inr ⟨r, zs, hr, hzs, x, hx, hb⟩

/-- The error branch is not taken. -/
theorem Chained.qRemove (h : Chained st chains) (hxs : chains q = some ((a, obj) :: xs)) :
    ∃ st', st.qRemove q = some (some obj, st') ∧
      Chained st' (Function.update chains q (some xs)) := by
  have hbefore := h.holds q _ hxs
  obtain ⟨st', hrem, hholds⟩ := hbefore.qRemove
  obtain ⟨owner, ho, -⟩ := h.owned
  refine ⟨st', hrem, h.update ho (ho.qRemove hrem).2 hholds ?_ ?_⟩
  · exact fun r zs hzs hne y hy => h.separate q r _ zs hxs hzs hne y (List.mem_cons_of_mem _ hy)
  · intro b cell hcell
    obtain ⟨r, zs, hzs, x, hx, hb⟩ := h.covered b cell (qRemove_obj hrem hcell)
    by_cases hr : r = q
    · subst hr
      obtain rfl := Option.some.inj (hxs.symm.trans hzs)
      rcases List.mem_cons.mp hx with rfl | hx
      · have hfreed := qRemove_freed hrem hbefore.record rfl
        rw [show b = a from hb.symm, hfreed] at hcell
        cases hcell
      · exact Or.inl ⟨x, hx, hb⟩
    · exact Or.inr ⟨r, zs, hr, hzs, x, hx, hb⟩

theorem map_update {ys : List (Addr × α)}
    (hlists : ∀ q, lists q = (chains q).map (List.map Prod.snd)) (q r : ι) :
    Function.update lists q (some (ys.map Prod.snd)) r =
      (Function.update chains q (some ys) r).map (List.map Prod.snd) := by
  by_cases hr : r = q
  · subst hr
    rw [Function.update_self, Function.update_self, Option.map_some]
  · rw [Function.update_of_ne hr, Function.update_of_ne hr, hlists]

/-- One call does to the queues what it does to the lists, and returns the same. -/
theorem Represents.serve (h : Represents st lists) (hok : c.Permitted st) :
    ∃ st', c.serve st = some ((c.fifo lists).1, st') ∧ Represents st' (c.fifo lists).2 := by
  obtain ⟨chains, hch, hlists⟩ := h
  cases c with
  | create q =>
    have hnil : ([] : List α) = ([] : List (Addr × α)).map Prod.snd := rfl
    refine ⟨_, rfl, _, hch.qCreate hok, ?_⟩
    rw [Call.fifo, hnil]
    exact map_update hlists q
  | insert q a obj =>
    obtain ⟨hq, hfree⟩ := hok
    obtain ⟨xs, hxs, -⟩ := hch.made hq
    obtain ⟨st', hins, hch'⟩ := hch.qInsert hxs hfree obj
    refine ⟨st', by simp [Call.serve, Call.fifo, hins], _, hch', ?_⟩
    have hq' : (lists q).map (· ++ [obj]) = some ((xs ++ [(a, obj)]).map Prod.snd) := by
      simp [hlists, hxs]
    simp only [Call.fifo, hq']
    exact map_update hlists q
  | remove q =>
    obtain ⟨⟨a, obj⟩, xs, hxs⟩ := hch.not_empty hok
    obtain ⟨st', hrem, hch'⟩ := hch.qRemove hxs
    refine ⟨st', ?_, _, hch', ?_⟩
    · simp [Call.serve, Call.fifo, hrem, hlists, hxs]
    · have hq' : (lists q).map List.tail = some (xs.map Prod.snd) := by
        simp [hlists, hxs]
      simp only [Call.fifo, hq']
      exact map_update hlists q

/-- So do all calls. -/
theorem Represents.serveAll (h : Represents st lists) (hok : PermittedAll calls st) :
    ∃ st', serveAll calls st = some ((fifoAll calls lists).1, st') ∧
      Represents st' (fifoAll calls lists).2 := by
  induction calls generalizing st lists with
  | nil => exact ⟨st, rfl, h⟩
  | cons c calls ih =>
    obtain ⟨hone, hrest⟩ := hok
    obtain ⟨st₁, hserve, h₁⟩ := h.serve hone
    rw [hserve] at hrest
    obtain ⟨st', hall, h'⟩ := ih h₁ hrest
    refine ⟨st', ?_, h'⟩
    simp only [Queue.serveAll, hserve, Option.bind_eq_bind, Option.bind_some, hall]
    rfl

/-- What is in the list and comes into it, in that order, is what is taken out of it and
what is left. -/
theorem Represents.serve_order (h : Represents st lists) (hok : c.Permitted st) (q : ι) :
    (lists q).getD [] ++ (c.inserted q).toList =
      (Call.removed q (c, (c.fifo lists).1)).toList ++ ((c.fifo lists).2 q).getD [] := by
  obtain ⟨chains, hch, hlists⟩ := h
  cases c with
  | create r =>
    by_cases hr : r = q
    · subst hr
      have hnone : chains r = none := by
        cases hxs : chains r with
        | none => rfl
        | some xs =>
          have hrecord := (hch.holds r xs hxs).record
          rw [show st.queues r = none from hok] at hrecord
          cases hrecord
      simp [hlists, hnone, Call.inserted, Call.removed, Call.fifo]
    · simp [Function.update_of_ne (Ne.symm hr), Call.inserted, Call.removed, Call.fifo]
  | insert r a obj =>
    by_cases hr : r = q
    · subst hr
      obtain ⟨xs, hxs, -⟩ := hch.made hok.1
      simp [hlists, hxs, Call.inserted, Call.removed, Call.fifo]
    · simp [Function.update_of_ne (Ne.symm hr), hr, Call.inserted, Call.removed, Call.fifo]
  | remove r =>
    by_cases hr : r = q
    · subst hr
      obtain ⟨x, xs, hxs⟩ := hch.not_empty hok
      simp [hlists, hxs, Call.inserted, Call.removed, Call.fifo]
    · simp [Function.update_of_ne (Ne.symm hr), hr, Call.inserted, Call.removed, Call.fifo]

theorem Represents.serveAll_order (h : Represents st lists) (hok : PermittedAll calls st) (q : ι) :
    (lists q).getD [] ++ calls.filterMap (Call.inserted q) =
      (calls.zip (fifoAll calls lists).1).filterMap (Call.removed q) ++
        ((fifoAll calls lists).2 q).getD [] := by
  induction calls generalizing st lists with
  | nil => simp [fifoAll]
  | cons c calls ih =>
    obtain ⟨hone, hrest⟩ := hok
    obtain ⟨st₁, hserve, h₁⟩ := h.serve hone
    rw [hserve] at hrest
    have horder := h.serve_order hone q
    have hlater := ih h₁ hrest
    have hcons : ∀ {β γ : Type} (f : β → Option γ) (x : β) (xs : List β),
        (x :: xs).filterMap f = (f x).toList ++ xs.filterMap f := by
      intro β γ f x xs
      cases hx : f x <;> simp [hx]
    change (lists q).getD [] ++ (c :: calls).filterMap (Call.inserted q) =
      ((c, (c.fifo lists).1) :: calls.zip (fifoAll calls (c.fifo lists).2).1).filterMap
        (Call.removed q) ++ ((fifoAll calls (c.fifo lists).2).2 q).getD []
    rw [hcons, hcons, ← List.append_assoc, horder, List.append_assoc, List.append_assoc, hlater]

/-- A permitted call leaves the other queues as they are, and `q_remove` does not take
its error branch. -/
theorem Represents.frame {x : Option α} (h : Represents st lists) (hok : c.Permitted st)
    (hserve : c.serve st = some (x, st')) :
    (∀ q, q ≠ c.queue → st'.contents q = st.contents q) ∧ ∀ q, c = .remove q → x ≠ none := by
  obtain ⟨st₁, hserve₁, h₁⟩ := h.serve hok
  rw [hserve] at hserve₁
  cases hserve₁
  refine ⟨fun q hq => ?_, fun q hc => ?_⟩
  · rw [h.contents_eq, h₁.contents_eq]
    refine congrArg (Option.getD · []) ?_
    cases c with
    | create r | insert r | remove r => exact Function.update_of_ne hq ..
  · subst hc
    obtain ⟨chains, hch, hlists⟩ := h
    obtain ⟨y, ys, hys⟩ := hch.not_empty hok
    simp [Call.fifo, hlists, hys]

/-- The queues refine lists: the calls succeed and return what the calls on the lists
return, the objects of each queue come out in the order in which they went in, the records
describe the chains, and a further call changes no other queue and finds no null head. -/
theorem queues_refine_fifo (hok : PermittedAll calls (Store.empty : Store ι α)) :
    ∃ rs st, serveAll calls Store.empty = some (rs, st) ∧
      rs = (fifoAll calls fun _ => none).1 ∧
      (∀ q, calls.filterMap (Call.inserted q) =
        (calls.zip rs).filterMap (Call.removed q) ++ st.contents q) ∧
      (∀ q Q, st.queues q = some Q → ∃ nodes, nodes.map Prod.snd = st.contents q ∧
        Links st.cells Q.head nodes ∧ Q.numObj = nodes.length ∧
        Q.tail = nodes.getLast?.map Prod.fst ∧ (Q.head = none ↔ Q.tail = none) ∧
        (Q.tail = none ↔ Q.numObj = 0) ∧ ∀ x ∈ nodes, st.cells x.1 ≠ none) ∧
      ∀ (c : Call ι α) x st', c.Permitted st → c.serve st = some (x, st') →
        (∀ q, q ≠ c.queue → st'.contents q = st.contents q) ∧ ∀ q, c = .remove q → x ≠ none := by
  obtain ⟨st, hall, h⟩ := represents_empty.serveAll hok
  refine ⟨_, st, hall, rfl, fun q => ?_, fun q Q hQ => ?_, fun c x st' hc hserve => ?_⟩
  · rw [h.contents_eq]
    exact represents_empty.serveAll_order hok q
  · have hmade : ∃ xs, (fifoAll calls fun _ => none).2 q = some xs := by
      obtain ⟨chains, hch, hlists⟩ := h
      obtain ⟨xs, hxs, -⟩ := hch.made (q := q) (by simp [hQ])
      exact ⟨_, (hlists q).trans (by rw [hxs]; rfl)⟩
    obtain ⟨xs, hxs⟩ := hmade
    obtain ⟨Q', nodes, hQ', hnodes, hrest⟩ := h.queue hxs
    obtain rfl := Option.some.inj (hQ.symm.trans hQ')
    exact ⟨nodes, by rw [h.contents_eq, hxs, hnodes]; rfl, hrest⟩
  · exact h.frame hc hserve

/-- Two queues, one of which becomes empty and then takes the node that was freed. -/
theorem queues_refine_fifo_reuse :
    (serveAll [.create 0, .create 1, .insert 0 7 true, .insert 1 8 false, .insert 1 9 true,
      .remove 0, .insert 0 7 false, .remove 1] (Store.empty : Store ℕ Bool)).map Prod.fst =
      some [none, none, none, none, none, some true, none, some false] := by
  have hok : PermittedAll [.create 0, .create 1, .insert 0 7 true, .insert 1 8 false,
      .insert 1 9 true, .remove 0, .insert 0 7 false, .remove 1] (Store.empty : Store ℕ Bool) :=
    ⟨rfl, rfl, ⟨by decide, rfl⟩, ⟨by decide, rfl⟩, ⟨by decide, rfl⟩, rfl, ⟨by decide, rfl⟩, rfl,
      trivial⟩
  obtain ⟨rs, st, hall, rfl, -⟩ := queues_refine_fifo hok
  rw [hall]
  rfl

end UserThreads.Queue
