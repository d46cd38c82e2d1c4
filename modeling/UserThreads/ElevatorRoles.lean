import UserThreads.Elevator

/-!
Who is who in the elevator. Thread 1 forks, thread 2 is the elevator, and all others are
riders from the list of arrivals, each with the priority of its rank. A thread goes on
in its own body only, so the roles are kept by every step.
-/
namespace UserThreads.Elevator

open Threads Runs Tallies

/-- The start and the end floor are floors that the elevator serves, and they differ. -/
structure Rider.Valid (r : Rider) : Prop where
  start : 1 ≤ r.floorS ∧ r.floorS < maxFloors
  goal : 1 ≤ r.floorE ∧ r.floorE < maxFloors
  differ : r.floorS ≠ r.floorE

theorem Rider.Valid.bounds {r : Rider} (h : r.Valid) :
    1 ≤ r.floorS ∧ r.floorS ≤ 10 ∧ 1 ≤ r.floorE ∧ r.floorE ≤ 10 :=
  ⟨h.start.1, Int.le_of_lt_add_one h.start.2, h.goal.1, Int.le_of_lt_add_one h.goal.2⟩

def AllValid (l : List Arrival) : Prop := ∀ r, .rider r ∈ l → r.Valid

/-- How many riders of the rank arrive. -/
def hired (rank : Rank) : List Arrival → ℤ
  | [] => 0
  | .rider r :: rest => (if r.rank = rank then 1 else 0) + hired rank rest
  | .yield :: rest => hired rank rest

/-- The riders of the company. -/
structure Admitted (l : List Arrival) : Prop where
  valid : AllValid l
  president : hired .president l ≤ 1
  directors : hired .director l ≤ 3
  employees : hired .employee l ≤ 10

variable {l : List Arrival} {s s' : Lift} {place next : Place} {op : Op} {x y : Option Op × Place}

theorem floors_packed : ∀ a < 11, ∀ b < 11,
    (a ||| b <<< 16) &&& 65535 = a ∧ (a ||| b <<< 16) >>> 16 = b := by
  decide +kernel

/-- A rider finds its floors in its argument. -/
theorem Rider.Valid.unpacked {r : Rider} (h : r.Valid) : riderOf r.rank r.arg = r := by
  obtain ⟨rank, floorS, floorE⟩ := r
  obtain ⟨hs, hs', he, he'⟩ := h.bounds
  dsimp only at hs hs' he he'
  obtain ⟨ha, hb⟩ := floors_packed floorS.toNat (by omega) floorE.toNat (by omega)
  simp only [Rider.arg, riderOf, ha, hb, Int.toNat_of_nonneg (le_trans Int.one_nonneg hs),
    Int.toNat_of_nonneg (le_trans Int.one_nonneg he)]

section Code

/-! What the statements of the program are, by the body they are in. -/

theorem inBody_act {L L' : Type} {f : L → L'} {c : Stmt Lift L} {next : L'}
    (h : inBody f c = .act s' next) : ∃ q, c = .act s' q ∧ next = f q := by
  cases c with
  | act shared q =>
    cases h
    exact ⟨q, rfl, rfl⟩
  | call | ret => cases h

theorem inBody_call {L L' : Type} {f : L → L'} {c : Stmt Lift L} {next : L'}
    (h : inBody f c = .call op next) : ∃ q, c = .call op q ∧ next = f q := by
  cases c with
  | call o q =>
    cases h
    exact ⟨q, rfl, rfl⟩
  | act | ret => cases h

/-- The statements of `firstThread`. -/
inductive Opening (l : List Arrival) (s : Lift) : Place → Stmt Lift Place → Prop
  | created : Opening l s (.create 0) (.act s .clear)
  | create (n : ℕ) : Opening l s (.create (n + 1)) (.call (.condCreate none true) (.create n))
  | clear : Opening l s .clear (.act s.cleared .elevator)
  | elevator : Opening l s .elevator (.call (.tFork 1 .null 5) (.arrivals l))
  | done : Opening l s (.arrivals []) .ret
  | rider (r : Rider) (rest : List Arrival) : Opening l s (.arrivals (.rider r :: rest))
      (.call (.tFork r.rank.rider r.arg r.rank.priority) (.arrivals rest))
  | yield (rest : List Arrival) :
      Opening l s (.arrivals (.yield :: rest)) (.call .tYield (.arrivals rest))

/-- Each statement is one of one body. -/
theorem code_cases (l : List Arrival) (s : Lift) (place : Place) :
    Opening l s place ((program l).code s place) ∨
      (∃ p, place = .post p ∧ (program l).code s place = inBody .post (elevatorThread s p)) ∨
      ∃ r p, place = .rider r p ∧ (program l).code s place = inBody (.rider r) (rider s r p) := by
  cases place with
  | create n =>
    cases n with
    | zero => exact Or.inl .created
    | succ n => exact Or.inl (.create n)
  | clear => exact Or.inl .clear
  | elevator => exact Or.inl .elevator
  | arrivals rest =>
    cases rest with
    | nil => exact Or.inl .done
    | cons a rest =>
      cases a with
      | rider r => exact Or.inl (.rider r rest)
      | yield => exact Or.inl (.yield rest)
  | post p => exact Or.inr (Or.inl ⟨p, rfl, rfl⟩)
  | rider r p => exact Or.inr (Or.inr ⟨r, p, rfl, rfl⟩)

theorem program_bare : (program l).Bare := by
  intro shared place op next hcode
  rcases code_cases l shared place with hopen | ⟨p, rfl, hbody⟩ | ⟨r, p, rfl, hbody⟩
  · generalize hc : (program l).code shared place = c at hopen
    rw [hc] at hcode
    subst hcode
    cases hopen <;> rfl
  · obtain ⟨q, hcall, -⟩ := inBody_call (hbody.symm.trans hcode)
    cases p with
    | yields d n => cases n <;> cases hcall <;> rfl
    | isEdge d => cases d <;> cases hcall
    | _ => cases hcall <;> rfl
  · obtain ⟨q, hcall, -⟩ := inBody_call (hbody.symm.trans hcode)
    cases p with
    | broadcast i =>
      simp only [rider] at hcall
      split at hcall <;> cases hcall
      rfl
    | _ => cases hcall <;> rfl

/-- The elevator stays in its body. -/
theorem advance_post {p : Post} {o : Option Op}
    (h : Advance (program l).code s (o, .post p) s' y) :
    ∃ q, y.2 = .post q ∧ Advance elevatorThread s (o, p) s' (y.1, q) := by
  cases h with
  | act place next shared' hcode =>
    obtain ⟨q, hact, rfl⟩ := inBody_act hcode
    exact ⟨q, rfl, .act p q s' hact⟩
  | call op place next hcode =>
    obtain ⟨q, hcall, rfl⟩ := inBody_call hcode
    exact ⟨q, rfl, .call op p q hcall⟩
  | ret op place hop => exact ⟨p, rfl, .ret op p hop⟩

/-- A rider stays in its body. -/
theorem advance_rider {r : Rider} {p : Stand} {o : Option Op}
    (h : Advance (program l).code s (o, .rider r p) s' y) :
    ∃ q, y.2 = .rider r q ∧ Advance (fun g => rider g r) s (o, p) s' (y.1, q) := by
  cases h with
  | act place next shared' hcode =>
    obtain ⟨q, hact, rfl⟩ := inBody_act hcode
    exact ⟨q, rfl, .act p q s' hact⟩
  | call op place next hcode =>
    obtain ⟨q, hcall, rfl⟩ := inBody_call hcode
    exact ⟨q, rfl, .call op p q hcall⟩
  | ret op place hop => exact ⟨p, rfl, .ret op p hop⟩

theorem call_post {q : Post} (h : (program l).code s place = .call op (.post q)) :
    ∃ p, elevatorThread s p = .call op q := by
  rcases code_cases l s place with hopen | ⟨p, rfl, hbody⟩ | ⟨r, p, rfl, hbody⟩
  · rw [h] at hopen
    cases hopen
  · obtain ⟨q', hcall, hq⟩ := inBody_call (hbody.symm.trans h)
    cases hq
    exact ⟨p, hcall⟩
  · obtain ⟨q', -, hq⟩ := inBody_call (hbody.symm.trans h)
    cases hq

theorem call_rider {r : Rider} {q : Stand} (h : (program l).code s place = .call op (.rider r q)) :
    ∃ p, rider s r p = .call op q := by
  rcases code_cases l s place with hopen | ⟨p, rfl, hbody⟩ | ⟨r', p, rfl, hbody⟩
  · rw [h] at hopen
    cases hopen
  · obtain ⟨q', -, hq⟩ := inBody_call (hbody.symm.trans h)
    cases hq
  · obtain ⟨q', hcall, hq⟩ := inBody_call (hbody.symm.trans h)
    cases hq
    exact ⟨p, hcall⟩

/-- The calls of `ElevatorThread`, by the place after them. -/
inductive Calls : Op → Post → Prop
  | firstWait : Calls (.tWait elvWait none) .spaces
  | sigEnter (d : Dir) (f i n x : ℤ) (k : After) :
      Calls (.tSig (going d f) .null none) (.waitEnter i n x d k)
  | waitEnter (d : Dir) (i n x : ℤ) (k : After) :
      Calls (.tWait elvWait none) (.enters (i + 1) n x d k)
  | sigExit (f i x : ℤ) (k : After) : Calls (.tSig (requests f) .null none) (.waitExit i x k)
  | waitExit (i x : ℤ) (k : After) : Calls (.tWait elvWait none) (.exits (i + 1) x k)
  | sleep : Calls (.tWait elvWait none) .isOpen
  | yields (d : Dir) (n : ℕ) : Calls .tYield (.yields d n)
  | isEdge (d : Dir) : Calls .tYield (.isEdge d)

theorem calls_of_code {p q : Post} (h : elevatorThread s p = .call op q) : Calls op q := by
  cases p with
  | yields d n =>
    cases n <;> cases h
    · exact .isEdge d
    · exact .yields d _
  | isEdge d => cases d <;> cases h
  | firstWait =>
    cases h
    exact .firstWait
  | sigEnter =>
    cases h
    exact .sigEnter ..
  | waitEnter =>
    cases h
    exact .waitEnter ..
  | sigExit =>
    cases h
    exact .sigExit ..
  | waitExit =>
    cases h
    exact .waitExit ..
  | sleep =>
    cases h
    exact .sleep
  | _ => cases h

/-- The calls of `rider`, by the place after them. -/
inductive Asks (r : Rider) : Op → Stand → Prop
  | sigElevator : Asks r (.tSig elvWait .null none) .countFloor
  | awaitEmpty : Asks r (.tWait emptyElevator none) .leaveEmpty
  | await : Asks r (.tWait (going r.dir r.floorS) none) .uncountFloor
  | sigRequest : Asks r (.tSig elvWait .null none) .awaitFloor
  | awaitFloor : Asks r (.tWait (requests r.floorE) none) .leaveFloor
  | broadcast (i : ℕ) (hi : i < 5) : Asks r (.tSig emptyElevator .null none) (.broadcast (i + 1))
  | sigExit : Asks r (.tSig elvWait .null none) .exited
  | exited : Asks r (.tExit 0) .gone

theorem asks_of_code {r : Rider} {p q : Stand} (h : rider s r p = .call op q) : Asks r op q := by
  cases p with
  | broadcast i =>
    simp only [rider] at h
    split at h <;> cases h
    exact .broadcast i ‹_›
  | sigElevator =>
    cases h
    exact .sigElevator
  | awaitEmpty =>
    cases h
    exact .awaitEmpty
  | await =>
    cases h
    exact .await
  | sigRequest =>
    cases h
    exact .sigRequest
  | awaitFloor =>
    cases h
    exact .awaitFloor
  | sigExit =>
    cases h
    exact .sigExit
  | exited =>
    cases h
    exact .exited
  | _ => cases h

/-- A statement of the loop of `t_sig` ends it or signals. -/
theorem broadcast_act {r : Rider} {q : Stand} {i : ℕ}
    (h : rider s r (.broadcast i) = .act s' q) : s' = s ∧ q = .sigExit := by
  simp only [rider] at h
  split at h <;> cases h
  exact ⟨rfl, rfl⟩

theorem broadcast_call {r : Rider} {q : Stand} {i : ℕ}
    (h : rider s r (.broadcast i) = .call op q) : q = .broadcast (i + 1) := by
  simp only [rider] at h
  split at h <;> cases h
  rfl

end Code

section Roles

/-- Where the first thread is before there is an elevator. -/
inductive Early (l : List Arrival) : Option Op × Place → Prop
  | create (n : ℕ) : Early l (none, .create n)
  | created (n : ℕ) : Early l (some (.condCreate none true), .create n)
  | clear : Early l (none, .clear)
  | elevator : Early l (none, .elevator)
  | fork : Early l (some (.tFork 1 .null 5), .arrivals l)

/-- Where the first thread is when it lets the riders arrive. -/
inductive Late (l : List Arrival) : Option Op × Place → Prop
  | arrivals (rest : List Arrival) (h : rest <:+ l) : Late l (none, .arrivals rest)
  | rider (r : Rider) (rest : List Arrival) (h : .rider r :: rest <:+ l) :
      Late l (some (.tFork r.rank.rider r.arg r.rank.priority), .arrivals rest)
  | yield (rest : List Arrival) (h : .yield :: rest <:+ l) : Late l (some .tYield, .arrivals rest)

/-- Where a thread is that has ended. -/
def Ended (x : Option Op × Place) : Prop :=
  x = (none, .arrivals []) ∨ ∃ r, x = (none, .rider r .gone)

theorem tid_cases {t : ℤ} (h : 1 ≤ t) : t = 1 ∨ t = 2 ∨ 3 ≤ t := by omega

/-- The roles of the threads. -/
structure Cast (l : List Arrival) (σ : Stage Lift Place) : Prop where
  opener : σ.last = 1 ∧ Early l (σ.pos 1) ∨ 2 ≤ σ.last ∧ Late l (σ.pos 1)
  elevator : 2 ≤ σ.last → ∃ p, (σ.pos 2).2 = .post p
  rider : ∀ t, 3 ≤ t → t ≤ σ.last → ∃ r p, (σ.pos t).2 = .rider r p ∧ .rider r ∈ l ∧
    σ.priority t = r.rank.priority
  first : σ.priority 1 = 5
  second : 2 ≤ σ.last → σ.priority 2 = 5
  finished : ∀ t ∈ σ.finished, Ended (σ.pos t)
  unborn : ∀ t, σ.last < t → σ.pos t = (none, .create 35)

variable {σ σ' : Stage Lift Place} {t : Tid}

theorem Early.advance (h : Early l x) (hadv : Advance (program l).code s x s' y) : Early l y := by
  cases h with
  | create n =>
    cases n <;> cases hadv <;> rename_i hcode <;> cases hcode
    · exact .clear
    · exact .created _
  | created n =>
    cases hadv
    exact .create n
  | clear =>
    cases hadv <;> rename_i hcode <;> cases hcode
    exact .elevator
  | elevator =>
    cases hadv <;> rename_i hcode <;> cases hcode
    exact .fork
  | fork =>
    cases hadv
    rename_i hop
    exact absurd rfl (hop _ _ _)

theorem Late.advance (h : Late l x) (hadv : Advance (program l).code s x s' y) : Late l y := by
  cases h with
  | arrivals rest hrest =>
    cases rest with
    | nil => cases hadv <;> rename_i hcode <;> cases hcode
    | cons a rest =>
      cases a <;> cases hadv <;> rename_i hcode <;> cases hcode
      · exact .rider _ rest hrest
      · exact .yield rest hrest
  | rider r rest hrest =>
    cases hadv
    rename_i hop
    exact absurd rfl (hop _ _ _)
  | yield rest hrest =>
    cases hadv
    exact .arrivals rest ((List.suffix_cons _ _).trans hrest)

theorem Ended.stuck (h : Ended x) : ¬ Advance (program l).code s x s' y := by
  intro hadv
  rcases h with rfl | ⟨r, rfl⟩ <;> cases hadv <;> rename_i hcode <;> cases hcode

theorem ended_of_ret (h : (program l).code s place = .ret) : Ended (none, place) := by
  cases place with
  | create n => cases n <;> cases h
  | arrivals rest =>
    cases rest with
    | nil => exact Or.inl rfl
    | cons a rest => cases a <;> cases h
  | clear | elevator => cases h
  | post p =>
    cases p with
    | yields d n => cases n <;> cases h
    | isEdge d => cases d <;> cases h
    | _ => cases h
  | rider r p =>
    cases p with
    | broadcast i =>
      simp only [program, rider] at h
      split at h <;> cases h
    | gone => exact Or.inr ⟨r, rfl⟩
    | _ => cases h

/-- The thread on the processor is one of the three. -/
theorem on_cases (hok : σ.Ok (program l)) (hon : σ.on = some t) :
    t = 1 ∨ t = 2 ∧ 2 ≤ σ.last ∨ 3 ≤ t ∧ t ≤ σ.last := by
  obtain ⟨hone, hle⟩ := hok.running t hon
  rcases tid_cases hone with rfl | rfl | hthree
  · exact Or.inl rfl
  · exact Or.inr (Or.inl ⟨rfl, hle⟩)
  · exact Or.inr (Or.inr ⟨hthree, hle⟩)

theorem pending_post {q : Post} (hok : σ.Ok (program l)) (hpos : σ.pos t = (some op, .post q)) :
    Calls op q := by
  obtain ⟨shared, before, hcode⟩ := hok.due t op (congrArg Prod.fst hpos)
  rw [hpos] at hcode
  obtain ⟨_, hcall⟩ := call_post hcode
  exact calls_of_code hcall

theorem pending_rider {r : Rider} {q : Stand} (hok : σ.Ok (program l))
    (hpos : σ.pos t = (some op, .rider r q)) : Asks r op q := by
  obtain ⟨shared, before, hcode⟩ := hok.due t op (congrArg Prod.fst hpos)
  rw [hpos] at hcode
  obtain ⟨_, hcall⟩ := call_rider hcode
  exact asks_of_code hcall

/-- The places of the elevator and of the riders with what they have called. -/
theorem Cast.pos_post (h : Cast l σ) (htwo : 2 ≤ σ.last) : ∃ o p, σ.pos 2 = (o, .post p) := by
  obtain ⟨p, hp⟩ := h.elevator htwo
  exact ⟨_, p, Prod.ext rfl hp⟩

theorem Cast.pos_rider (h : Cast l σ) (hthree : 3 ≤ t) (hle : t ≤ σ.last) :
    ∃ o r p, σ.pos t = (o, .rider r p) ∧ .rider r ∈ l ∧ σ.priority t = r.rank.priority := by
  obtain ⟨r, p, hp, hr⟩ := h.rider t hthree hle
  exact ⟨_, r, p, Prod.ext rfl hp, hr⟩

theorem Cast.pos_opener (h : Cast l σ) : Early l (σ.pos 1) ∨ Late l (σ.pos 1) :=
  h.opener.imp (fun h => h.2) fun h => h.2

/-- Only the first thread forks. -/
theorem Cast.forks (h : Cast l σ) (hok : σ.Ok (program l)) {f : ThreadFunc} {v : AnyPtr} {p : ℤ}
    (hon : σ.on = some t) (hpos : σ.pos t = (some (.tFork f v p), place)) : t = 1 := by
  rcases on_cases hok hon with rfl | ⟨rfl, htwo⟩ | ⟨hthree, hle⟩
  · rfl
  · obtain ⟨o, q, hq⟩ := h.pos_post htwo
    cases hpos.symm.trans hq
    cases pending_post hok hq
  · obtain ⟨o, r, q, hq, -⟩ := h.pos_rider hthree hle
    cases hpos.symm.trans hq
    cases pending_rider hok hq

/-- Only a rider calls `t_exit`, and it is the last thing it does. -/
theorem Cast.exits (h : Cast l σ) (hok : σ.Ok (program l)) {v : ℤ} (hon : σ.on = some t)
    (hpos : σ.pos t = (some (.tExit v), place)) : ∃ r, place = .rider r .gone := by
  rcases on_cases hok hon with rfl | ⟨rfl, htwo⟩ | ⟨hthree, hle⟩
  · rcases h.pos_opener with hearly | hlate
    · rw [hpos] at hearly
      cases hearly
    · rw [hpos] at hlate
      cases hlate
  · obtain ⟨o, q, hq⟩ := h.pos_post htwo
    cases hpos.symm.trans hq
    cases pending_post hok hq
  · obtain ⟨o, r, q, hq, -⟩ := h.pos_rider hthree hle
    cases hpos.symm.trans hq
    cases pending_rider hok hq
    exact ⟨r, rfl⟩

/-- Who has ended after a beat is where it ends. -/
theorem Cast.over_step (h : Cast l σ) (hok : σ.Ok (program l)) (hbeat : Beat (program l) σ σ') :
    ∀ t ∈ σ'.finished, Ended (σ'.pos t) := by
  intro t ht
  have hold : t ∈ σ.finished → Ended (σ'.pos t) := by
    intro hover
    have hended := h.finished t hover
    cases hbeat.shifts with
    | stay _ hpos => exact hpos ▸ hended
    | advance u y hon hadv hpos =>
      rw [hpos, Function.update_of_ne]
      · exact hended
      · rintro rfl
        exact hended.stuck hadv
    | fork u f v p place hon hplace _ hpos =>
      rw [hpos, Function.update_of_ne (ne_of_lt (lt_of_le_of_lt (hok.ended t hover).2 (lt_next _))),
        Function.update_of_ne]
      · exact hended
      · rintro rfl
        rcases hended with heq | ⟨r, heq⟩ <;> rw [hplace] at heq <;> cases heq
  cases hbeat with
  | finish u place hon hpos hcode =>
    rcases ht with rfl | hover
    · exact hpos ▸ ended_of_ret hcode
    · exact hold hover
  | exit u v place hon hpos =>
    rcases ht with rfl | hover
    · obtain ⟨r, rfl⟩ := h.exits hok hon hpos
      exact Or.inr ⟨r, Function.update_self ..⟩
    · exact hold hover
  | _ => exact hold ht

/-- A rider that is forked is one of the arrivals. -/
theorem body_rider (hl : AllValid l) {r : Rider} (hr : .rider r ∈ l) :
    (program l).body r.rank.rider r.arg = .rider r .start := by
  have harg := (hl r hr).unpacked
  cases hrank : r.rank <;> rw [hrank] at harg <;> simp [program, Rank.rider, harg]

/-- The roles when the thread on the processor goes on. -/
theorem Cast.advance (h : Cast l σ) (hok : σ.Ok (program l)) (hon : σ.on = some t)
    (hadv : Advance (program l).code σ.shared (σ.pos t) s' y) :
    (t = 1 → Early l (σ.pos 1) → Early l y) ∧ (t = 1 → Late l (σ.pos 1) → Late l y) ∧
      (t = 2 → ∃ p, y.2 = .post p) ∧
      ∀ r p, (σ.pos t).2 = .rider r p → ∃ q, y.2 = .rider r q := by
  refine ⟨?_, ?_, ?_, ?_⟩
  · rintro rfl hearly
    exact hearly.advance hadv
  · rintro rfl hlate
    exact hlate.advance hadv
  · rintro rfl
    obtain ⟨o, p, hp⟩ := h.pos_post (hok.running 2 hon).2
    rw [hp] at hadv
    obtain ⟨q, hq, -⟩ := advance_post hadv
    exact ⟨q, hq⟩
  · intro r p hp
    rw [show σ.pos t = (_, .rider r p) from Prod.ext rfl hp] at hadv
    obtain ⟨q, hq, -⟩ := advance_rider hadv
    exact ⟨q, hq⟩

/-- Every thread keeps its role. -/
theorem Cast.beat (h : Cast l σ) (hok : σ.Ok (program l)) (hl : AllValid l)
    (hbeat : Beat (program l) σ σ') : Cast l σ' := by
  have hover := h.over_step hok hbeat
  have hunborn : ∀ t, σ'.last < t → σ'.pos t = (none, .create 35) := fun t ht =>
    (hbeat.pos_unborn hok ht).trans (h.unborn t (lt_of_le_of_lt hbeat.last_le ht))
  have hprio : ∀ t, t ≤ σ.last → σ'.priority t = σ.priority t := fun t => hbeat.priority_kept
  have hone : σ'.priority 1 = 5 := (hprio 1 hok.first).trans h.first
  cases hbeat.shifts with
  | stay hshared hpos hlast =>
    rw [← hlast] at hprio
    refine ⟨?_, ?_, fun t hthree hle => ?_, hone, fun htwo => ?_, hover, hunborn⟩
    · rw [hpos, hlast]
      exact h.opener
    · rw [hpos, hlast]
      exact h.elevator
    · rw [hpos, hprio t hle]
      exact h.rider t hthree (hlast ▸ hle)
    · rw [hprio 2 htwo]
      exact h.second (hlast ▸ htwo)
  | advance u y hon hadv hpos hlast =>
    rw [← hlast] at hprio
    obtain ⟨hearly, hlate, hpost, hrider⟩ := h.advance hok hon hadv
    refine ⟨?_, fun htwo => ?_, fun t hthree hle => ?_, hone, fun htwo => ?_, hover, hunborn⟩
    · rw [hpos, hlast]
      by_cases hu : 1 = u
      · subst hu
        rw [Function.update_self]
        exact h.opener.imp (fun h => ⟨h.1, hearly rfl h.2⟩) fun h => ⟨h.1, hlate rfl h.2⟩
      · rw [Function.update_of_ne hu]
        exact h.opener
    · rw [hpos]
      by_cases hu : 2 = u
      · subst hu
        rw [Function.update_self]
        exact hpost rfl
      · rw [Function.update_of_ne hu]
        exact h.elevator (hlast ▸ htwo)
    · rw [hpos, hprio t hle]
      obtain ⟨r, p, hp, hr⟩ := h.rider t hthree (hlast ▸ hle)
      by_cases hu : t = u
      · subst hu
        rw [Function.update_self]
        obtain ⟨q, hq⟩ := hrider r p hp
        exact ⟨r, q, hq, hr⟩
      · rw [Function.update_of_ne hu]
        exact ⟨r, p, hp, hr⟩
    · rw [hprio 2 htwo]
      exact h.second (hlast ▸ htwo)
  | fork u f v p place hon hplace hshared hpos hlast hnew =>
    obtain rfl := h.forks hok hon hplace
    have hself : σ'.pos 1 = (none, place) := by
      rw [hpos, Function.update_of_ne (ne_of_lt (lt_of_le_of_lt hok.first (lt_next _))),
        Function.update_self]
    have hborn : σ'.pos (σ.last + 1) = (none, (program l).body f v) := by
      rw [hpos, Function.update_self]
    rcases h.opener with ⟨hlone, hearly⟩ | ⟨htwo, hlate⟩
    · rw [hplace] at hearly
      cases hearly
      rw [hlone] at hlast hborn hnew
      refine ⟨Or.inr ⟨le_of_eq hlast.symm, hself ▸ .arrivals l List.suffix_rfl⟩,
        fun _ => ⟨.start, congrArg Prod.snd hborn⟩, fun t hthree hle => ?_, hone, fun _ => hnew,
        hover,
        hunborn⟩
      rw [hlast] at hle
      exact absurd (le_trans hthree hle) (by decide)
    · have hold : ∀ t, t ≠ 1 → t ≤ σ.last → σ'.pos t = σ.pos t := by
        intro t ht hle
        rw [hpos, Function.update_of_ne (ne_of_lt (lt_of_le_of_lt hle (lt_next _))),
          Function.update_of_ne ht]
      rw [hplace] at hlate
      cases hlate with
      | rider r rest hrest =>
        have hr : .rider r ∈ l := hrest.subset (List.mem_cons_self ..)
        rw [body_rider hl hr] at hborn
        refine ⟨Or.inr ⟨?_, hself ▸ .arrivals _ ((List.suffix_cons _ _).trans hrest)⟩, fun _ => ?_,
          fun t hthree hle => ?_, hone, fun _ => ?_, hover, hunborn⟩
        · rw [hlast]
          exact le_trans htwo (le_of_lt (lt_next _))
        · rw [hold 2 (by decide) htwo]
          exact h.elevator htwo
        · rw [hlast] at hle
          rcases (Int.le_add_one_iff.mp hle) with hle | rfl
          · rw [hold t (by rintro rfl; exact absurd hthree (by decide)) hle, hprio t hle]
            exact h.rider t hthree hle
          · exact ⟨r, .start, congrArg Prod.snd hborn, hr, hnew⟩
        · rw [hprio 2 htwo]
          exact h.second htwo

theorem Cast.post_born (h : Cast l σ) {o : Option Op} {q : Post} (hpos : σ.pos 2 = (o, .post q)) :
    2 ≤ σ.last := by
  by_contra hlast
  cases (h.unborn 2 (lt_of_not_ge hlast)).symm.trans hpos

/-- What a beat does to the elevator. -/
inductive PostBeat (σ σ' : Stage Lift Place) : Prop
  | stays (hpos : σ'.pos 2 = σ.pos 2) (hshared : σ.on = some 2 → σ'.shared = σ.shared)
  | starts (hlast : σ.last = 1) (hpos : σ'.pos 2 = (none, .post .start))
      (hshared : σ'.shared = σ.shared)
  | goes (o o' : Option Op) (q q' : Post) (hon : σ.on = some 2) (hpos : σ.pos 2 = (o, .post q))
      (hpos' : σ'.pos 2 = (o', .post q'))
      (hadv : Advance elevatorThread σ.shared (o, q) σ'.shared (o', q'))

theorem Cast.post_beat (h : Cast l σ) (hok : σ.Ok (program l)) (hbeat : Beat (program l) σ σ') :
    PostBeat σ σ' := by
  cases hbeat.shifts with
  | stay hshared hpos => exact .stays (by rw [hpos]) fun _ => hshared
  | advance t y hon hadv hpos =>
    by_cases ht : t = 2
    · subst ht
      obtain ⟨o, q, hq⟩ := h.pos_post (hok.running 2 hon).2
      rw [hq] at hadv
      obtain ⟨q', hq', hadv⟩ := advance_post hadv
      exact .goes o y.1 q q' hon hq (by rw [hpos, Function.update_self, ← hq']) hadv
    · refine .stays (by rw [hpos, Function.update_of_ne (Ne.symm ht)]) fun hon' => ?_
      cases hon.symm.trans hon'
      exact absurd rfl ht
  | fork t f v p place hon hplace hshared hpos hlast =>
    obtain rfl := h.forks hok hon hplace
    rcases h.opener with ⟨hlone, hearly⟩ | ⟨htwo, -⟩
    · rw [hplace] at hearly
      cases hearly
      refine .starts hlone ?_ hshared
      rw [hpos, hlone]
      exact Function.update_self ..
    · refine .stays ?_ fun _ => hshared
      rw [hpos, Function.update_of_ne (ne_of_lt (lt_of_le_of_lt htwo (lt_next _)))]
      exact Function.update_of_ne (by decide) ..

/-- When the first thread sets the shared variables there is no other. -/
theorem Cast.lone (h : Cast l σ) (hclear : σ.pos 1 = (none, .clear)) : σ.last = 1 := by
  rcases h.opener with ⟨hlast, -⟩ | ⟨-, hlate⟩
  · exact hlast
  · rw [hclear] at hlate
    cases hlate

theorem Cast.is_post (h : Cast l σ) {o : Option Op} {q : Post} (hone : 1 ≤ t)
    (hle : t ≤ σ.last) (hpos : σ.pos t = (o, .post q)) : t = 2 := by
  rcases tid_cases hone with rfl | rfl | hthree
  · have hopener := h.pos_opener
    rw [hpos] at hopener
    rcases hopener with h | h <;> cases h
  · rfl
  · obtain ⟨r, p, hp, -⟩ := h.rider t hthree hle
    rw [hpos] at hp
    cases hp

/-- Who is in the body of a rider is a rider of the arrivals. -/
theorem Cast.is_rider (h : Cast l σ) {o : Option Op} {r : Rider} {q : Stand} (hone : 1 ≤ t)
    (hle : t ≤ σ.last) (hpos : σ.pos t = (o, .rider r q)) :
    3 ≤ t ∧ .rider r ∈ l ∧ σ.priority t = r.rank.priority := by
  rcases tid_cases hone with rfl | rfl | hthree
  · have hopener := h.pos_opener
    rw [hpos] at hopener
    rcases hopener with h | h <;> cases h
  · obtain ⟨p, hp⟩ := h.elevator hle
    rw [hpos] at hp
    cases hp
  · obtain ⟨r', q', hq, hr, hprio⟩ := h.rider t hthree hle
    rw [hpos] at hq
    cases hq
    exact ⟨hthree, hr, hprio⟩

/-- Who is new is the elevator or a rider of the arrivals. -/
theorem Cast.born (h : Cast l σ) (hok : σ.Ok (program l)) (hl : AllValid l)
    (hbeat : Beat (program l) σ σ') (hlast : σ'.last = σ.last + 1) :
    σ.last = 1 ∧ σ'.pos 2 = (none, .post .start) ∨
      2 ≤ σ.last ∧ ∃ r, .rider r ∈ l ∧ σ'.pos (σ.last + 1) = (none, .rider r .start) := by
  cases hbeat.shifts with
  | stay _ _ hsame | advance _ _ _ _ _ hsame =>
    exact absurd (hsame.symm.trans hlast) (ne_of_lt (lt_next _))
  | fork t f v p place hon hplace hshared hpos =>
    obtain rfl := h.forks hok hon hplace
    have hborn : σ'.pos (σ.last + 1) = (none, (program l).body f v) := by
      rw [hpos, Function.update_self]
    rcases h.opener with ⟨hlone, hearly⟩ | ⟨htwo, hlate⟩
    · rw [hplace] at hearly
      cases hearly
      rw [hlone] at hborn
      exact Or.inl ⟨hlone, hborn⟩
    · rw [hplace] at hlate
      cases hlate with
      | rider r rest hrest =>
        have hr : .rider r ∈ l := hrest.subset (List.mem_cons_self ..)
        rw [body_rider hl hr] at hborn
        exact Or.inr ⟨htwo, r, hr, hborn⟩

/-- The first thread changes the shared variables once, before there is another thread. -/
theorem opener_shared (h : Early l x ∨ Late l x) (hadv : Advance (program l).code s x s' y) :
    s' = s ∨ x = (none, .clear) ∧ s' = s.cleared := by
  rcases h with h | h
  · cases h with
    | create n =>
      cases n <;> cases hadv <;> rename_i hcode <;> cases hcode <;> exact Or.inl rfl
    | created | fork =>
      cases hadv
      exact Or.inl rfl
    | clear =>
      cases hadv <;> rename_i hcode <;> cases hcode
      exact Or.inr ⟨rfl, rfl⟩
    | elevator =>
      cases hadv <;> rename_i hcode <;> cases hcode
      exact Or.inl rfl
  · cases h with
    | arrivals rest =>
      cases rest with
      | nil => cases hadv <;> rename_i hcode <;> cases hcode
      | cons a rest =>
        cases a <;> cases hadv <;> rename_i hcode <;> cases hcode <;> exact Or.inl rfl
    | rider | yield =>
      cases hadv
      exact Or.inl rfl

/-- What a beat does to a rider. -/
theorem Cast.rider_beat (h : Cast l σ) (hok : σ.Ok (program l)) (hbeat : Beat (program l) σ σ')
    {o : Option Op} {r : Rider} {q : Stand} (hone : 1 ≤ t) (hle : t ≤ σ.last)
    (hpos : σ.pos t = (o, .rider r q)) :
    σ'.pos t = σ.pos t ∨ ∃ o' q', σ.on = some t ∧ σ'.pos t = (o', .rider r q') ∧
      Advance (fun g => Elevator.rider g r) σ.shared (o, q) σ'.shared (o', q') := by
  by_cases hon : σ.on = some t
  · cases hbeat.shifts with
    | stay _ hsame => exact Or.inl (by rw [hsame])
    | advance u y hon' hadv hpos' =>
      cases hon.symm.trans hon'
      rw [hpos] at hadv
      obtain ⟨q', hq', hadv⟩ := advance_rider hadv
      refine Or.inr ⟨y.1, q', hon, ?_, hadv⟩
      rw [hpos', Function.update_self, ← hq']
    | fork u f v p place hon' hplace =>
      cases hon.symm.trans hon'
      obtain rfl := h.forks hok hon hplace
      exact absurd (h.is_rider hone hle hpos).1 (by decide)
  · exact Or.inl (hbeat.pos_kept hle hon)

/-- Who is a rider after a beat was it before, or has just been forked. -/
theorem Cast.rider_before (h : Cast l σ) (hok : σ.Ok (program l)) (hl : AllValid l)
    (hbeat : Beat (program l) σ σ') {o : Option Op} {r : Rider} {q : Stand} (hone : 1 ≤ t)
    (hle : t ≤ σ'.last) (hpos : σ'.pos t = (o, .rider r q)) :
    (t ≤ σ.last ∧ ∃ o q, σ.pos t = (o, .rider r q)) ∨ o = none ∧ q = .start := by
  have h' := h.beat hok hl hbeat
  have hthree := (h'.is_rider hone hle hpos).1
  by_cases hold : t ≤ σ.last
  · obtain ⟨o', r', q', hq, -⟩ := h.pos_rider hthree hold
    rcases h.rider_beat hok hbeat hone hold hq with hsame | ⟨o'', q'', -, hpos', -⟩
    · cases (hq.symm.trans hsame.symm).trans hpos
      exact Or.inl ⟨hold, o, q, hq⟩
    · cases hpos'.symm.trans hpos
      exact Or.inl ⟨hold, o', q', hq⟩
  · have hlast : σ'.last = σ.last + 1 ∧ t = σ.last + 1 := by
      cases hbeat.shifts with
      | stay _ _ hsame | advance _ _ _ _ _ hsame => exact absurd (hsame ▸ hle) hold
      | fork _ _ _ _ _ _ _ _ _ hlast =>
        exact ⟨hlast, le_antisymm (hlast ▸ hle) (Int.add_one_le_of_lt (lt_of_not_ge hold))⟩
    rcases h.born hok hl hbeat hlast.1 with ⟨hlone, -⟩ | ⟨-, r', -, hborn⟩
    · rw [hlast.2, hlone] at hthree
      exact absurd hthree (by decide)
    · rw [hlast.2, hborn] at hpos
      cases hpos
      exact Or.inr ⟨rfl, rfl⟩

/-- What a beat does to the shared variables. -/
inductive SharedBeat (l : List Arrival) (σ σ' : Stage Lift Place) : Prop
  | same (hshared : σ'.shared = σ.shared)
  | cleared (hpos : σ.pos 1 = (none, .clear)) (hshared : σ'.shared = σ.shared.cleared)
  | post (o o' : Option Op) (q q' : Post) (hon : σ.on = some 2) (hpos : σ.pos 2 = (o, .post q))
      (hpos' : σ'.pos 2 = (o', .post q'))
      (hadv : Advance elevatorThread σ.shared (o, q) σ'.shared (o', q'))
  | rider (t : Tid) (r : Rider) (o o' : Option Op) (q q' : Stand) (hon : σ.on = some t)
      (hthree : 3 ≤ t) (hle : t ≤ σ.last) (hr : .rider r ∈ l) (hpos : σ.pos t = (o, .rider r q))
      (hpos' : σ'.pos t = (o', .rider r q'))
      (hadv : Advance (fun g => Elevator.rider g r) σ.shared (o, q) σ'.shared (o', q'))

theorem Cast.shared_beat (h : Cast l σ) (hok : σ.Ok (program l)) (hbeat : Beat (program l) σ σ') :
    SharedBeat l σ σ' := by
  cases hbeat.shifts with
  | stay hshared => exact .same hshared
  | fork _ _ _ _ _ _ _ hshared => exact .same hshared
  | advance t y hon hadv hpos =>
    rcases on_cases hok hon with rfl | ⟨rfl, htwo⟩ | ⟨hthree, hle⟩
    · rcases opener_shared h.pos_opener hadv with hsame | ⟨hclear, hcleared⟩
      · exact .same hsame
      · exact .cleared hclear hcleared
    · obtain ⟨o, q, hq⟩ := h.pos_post htwo
      rw [hq] at hadv
      obtain ⟨q', hq', hadv⟩ := advance_post hadv
      exact .post o y.1 q q' hon hq (by rw [hpos, Function.update_self, ← hq']) hadv
    · obtain ⟨o, r, q, hq, hr, -⟩ := h.pos_rider hthree hle
      rw [hq] at hadv
      obtain ⟨q', hq', hadv⟩ := advance_rider hadv
      exact .rider t r o y.1 q q' hon hthree hle hr hq
        (by rw [hpos, Function.update_self, ← hq']) hadv

end Roles

end UserThreads.Elevator
