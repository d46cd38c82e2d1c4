import UserThreads.Beats
import UserThreads.Tallies

/-!
The elevator of `TEST5A.C` (`ELEVATOR.H`). The first thread makes the conditions, forks
`ElevatorThread` and then riders, each a thread of `rider` with the priority of a
president, a director or an employee. The two bodies of each direction in the source,
`elevatorCallUP` and `elevatorCallDown` and the halves of the loop of `ElevatorThread`,
are one here with the direction as an argument. No lock is used: the riders and the
elevator hand control to each other by `t_sig` and `t_wait`.
-/
namespace UserThreads.Elevator

open Threads Runs Tallies

/-- `UP` and `DOWN`. -/
inductive Dir
  | up
  | down
deriving DecidableEq

/-- `elevatorState`. -/
inductive Door
  | moving
  | closed
  | opened
  | stopped
deriving DecidableEq

/-- What `t_priority` tells of a rider. -/
inductive Rank
  | president
  | director
  | employee
deriving DecidableEq

namespace Dir

def opposite : Dir → Dir
  | .up => .down
  | .down => .up

/-- In this direction the floor `a` comes before the floor `b`. -/
def before : Dir → ℤ → ℤ → Prop
  | .up, a, b => a < b
  | .down, a, b => b < a

instance (d : Dir) (a b : ℤ) : Decidable (d.before a b) := by
  cases d <;> unfold before <;> infer_instance

/-- The next floor. -/
def next : Dir → ℤ → ℤ
  | .up, f => f + 1
  | .down, f => f - 1

end Dir

namespace Rank

def priority : Rank → ℤ
  | .president => 30
  | .director => 20
  | .employee => 10

/-- The number of the function `rider`, as it is forked with the priority. -/
def rider : Rank → ThreadFunc
  | .president => 2
  | .director => 3
  | .employee => 4

end Rank

abbrev maxRiders : ℤ := 5
abbrev maxFloors : ℤ := 11

/-- The fields of `bld` and of `elv` that are no conditions. -/
structure Lift where
  /-- `numUp` and `numDown` of `bld.floors[i]` -/
  numOf : Dir → ℤ → ℤ
  waiters : ℤ
  /-- `setPresident`, `setDirectors` and `setEmployee` -/
  setOf : Rank → ℤ
  reqSFP : ℤ
  reqEFP : ℤ
  reqSFD : ℤ → ℤ
  reqEFD : ℤ → ℤ
  reqSFE : ℤ → ℤ
  reqEFE : ℤ → ℤ
  waitingforEmpty : ℤ
  /-- 0 before the elevator thread has set it -/
  direction : Option Dir
  currentFloor : ℤ
  state : Door
  numRiders : ℤ
  /-- `presidentRiders`, `directorRiders` and `employeeRiders` -/
  riders : Rank → ℤ
  /-- `numWaiters` of `elv.floors[i]` -/
  numWaiters : ℤ → ℤ

/-! The conditions by the numbers that `cond_create` gives them: the first thread is the
only one that calls it. -/

/-- `bld.floors[i].goingUp` and `goingDown`. -/
def going (d : Dir) (i : ℤ) : CondId :=
  match d with
  | .up => 2 * i.toNat
  | .down => 2 * i.toNat + 1

def elvWait : CondId := 22

def emptyElevator : CondId := 23

/-- `elv.floors[i].requests`. -/
def requests (i : ℤ) : CondId := 24 + i.toNat

/-- Where the code goes on in `ElevatorThread` when the door is closed after a visit. -/
inductive After
  /-- `reqSFP = -1` -/
  | pickedUp (d : Dir)
  /-- `reqEFP = -1` -/
  | droppedOff
  | served
deriving DecidableEq

/-- The places of `ElevatorThread` and of the functions that it calls, with the local variables
that are in use. A place stands before the statement or the test it is named after; `d` is the
half of the loop. -/
inductive Post
  | start
  | faceUp
  | firstFloor
  | noRiders
  | firstWait
  /-- the start of an iteration: `numSpaces` -/
  | spaces
  | isUp (numSpaces : ℤ)
  | numEnter (d : Dir) (numSpaces : ℤ)
  | numExit (d : Dir) (numSpaces numEnter : ℤ)
  | isPresident (d : Dir) (numSpaces numEnter numExit : ℤ)
  /-- change of direction on the fly -/
  | isBehind (d : Dir)
  | turn (d : Dir)
  | isHere (d : Dir)
  | isBack (d : Dir)
  | turnBack (d : Dir)
  | isArrived (d : Dir)
  | isDirector (d : Dir) (numSpaces numEnter numExit : ℤ)
  /-- the loop over the slots of the directors -/
  | slot (d : Dir) (i dEnter dExit : ℤ)
  | markEnter (d : Dir) (i dEnter dExit : ℤ)
  | isExit (d : Dir) (i dEnter dExit : ℤ)
  | markExit (d : Dir) (i dEnter dExit : ℤ)
  | isEmployee (d : Dir) (numSpaces numEnter numExit : ℤ)
  | isAwaited (d : Dir) (numSpaces numEnter numExit : ℤ)
  | isWorth (d : Dir) (numSpaces numEnter numExit : ℤ)
  | openDoor (numEnter numExit : ℤ) (d : Dir) (k : After)
  /-- the loops of `el_visitFloor` -/
  | enters (i numEnter numExit : ℤ) (d : Dir) (k : After)
  | sigEnter (i numEnter numExit : ℤ) (d : Dir) (k : After)
  | waitEnter (i numEnter numExit : ℤ) (d : Dir) (k : After)
  | exits (i numExit : ℤ) (k : After)
  | sigExit (i numExit : ℤ) (k : After)
  | waitExit (i numExit : ℤ) (k : After)
  | closeDoor (k : After)
  | clearStart (d : Dir)
  | clearEnd
  | isIdle
  | stop
  | sleep
  | isOpen
  | shut
  | isWanted
  | isUpward
  /-- `el_moveOneFloorUp` and `el_moveOneFloorDown` -/
  | isShut (d : Dir)
  | move (d : Dir)
  | yields (d : Dir) (n : ℕ)
  | isEdge (d : Dir)
  | back
  | isFacing (d : Dir)
  | bounce (d : Dir)
deriving DecidableEq

/-- The places of `rider` and of the functions that it calls. -/
inductive Stand
  | start
  /-- `elevatorCallUP` and `elevatorCallDown` -/
  | isStopped
  | sigElevator
  | countFloor
  | countWaiter
  | isEmpty
  | joinEmpty
  | awaitEmpty
  | leaveEmpty
  /-- `setPresident++`, `setDirectors++` or `setEmployee++` -/
  | count
  | storeStart
  | storeEnd
  | await
  | uncountFloor
  /-- `elevatorEnter` -/
  | enter
  | enterRank
  | uncountWaiter
  /-- `elevatorRequestFloor` -/
  | request
  | sigRequest
  | awaitFloor
  /-- `elevatorExit` -/
  | leaveFloor
  | exit
  | exitRank
  | uncount
  | clearStart
  | clearEnd
  | isVacant
  /-- the loop of `t_sig`, with `i` -/
  | broadcast (i : ℕ)
  | sigExit
  | exited
  | gone
deriving DecidableEq

/-- A rider: the rank, and the floors that `rider` takes from its argument. -/
structure Rider where
  rank : Rank
  floorS : ℤ
  floorE : ℤ
deriving DecidableEq

namespace Rider

/-- `startFloor |= (endFloor << 16)`. -/
def arg (r : Rider) : AnyPtr := .data (r.floorS.toNat ||| r.floorE.toNat <<< 16)

/-- Whether the rider calls `elevatorCallUP`. -/
def dir (r : Rider) : Dir := if r.floorS < r.floorE then .up else .down

end Rider

/-- What the first thread does after it has forked the elevator. -/
inductive Arrival
  | rider (r : Rider)
  | yield
deriving DecidableEq

inductive Place
  /-- `firstThread`: the calls of `cond_create` that are left -/
  | create (n : ℕ)
  | clear
  | elevator
  | arrivals (l : List Arrival)
  | post (p : Post)
  | rider (r : Rider) (p : Stand)
deriving DecidableEq

/-- `start & 0xffff` and `end >> 16` in `rider`. -/
def riderOf (rank : Rank) (v : AnyPtr) : Rider :=
  match v with
  | .data n => ⟨rank, (n &&& 65535 : ℕ), (n >>> 16 : ℕ)⟩
  | _ => ⟨rank, 0, 0⟩

/-- A function with one value changed by `n`. -/
def bump {ι : Type} [DecidableEq ι] (f : ι → ℤ) (i : ι) (n : ℤ) : ι → ℤ :=
  Function.update f i (f i + n)

namespace Lift

variable (g : Lift)

/-- `numUp` or `numDown` of a floor changes. -/
def bumpFloor (d : Dir) (i n : ℤ) : Lift :=
  { g with numOf := Function.update g.numOf d (bump (g.numOf d) i n) }

/-- `reqSFP = floorS`, `reqSFD[setDirectors] = floorS` or `reqSFE[setEmployee] = floorS`. -/
def storeStart (rank : Rank) (floor : ℤ) : Lift :=
  match rank with
  | .president => { g with reqSFP := floor }
  | .director => { g with reqSFD := Function.update g.reqSFD (g.setOf .director) floor }
  | .employee => { g with reqSFE := Function.update g.reqSFE (g.setOf .employee) floor }

/-- The same for `reqEFP`, `reqEFD` and `reqEFE`. -/
def storeEnd (rank : Rank) (floor : ℤ) : Lift :=
  match rank with
  | .president => { g with reqEFP := floor }
  | .director => { g with reqEFD := Function.update g.reqEFD (g.setOf .director) floor }
  | .employee => { g with reqEFE := Function.update g.reqEFE (g.setOf .employee) floor }

end Lift

/-- `ElevatorThread` and the functions that it calls. The local variables that only this thread
sees change together with the next statement. -/
def elevatorThread (g : Lift) : Post → Stmt Lift Post
  | .start => .act { g with state := .stopped } .faceUp
  | .faceUp => .act { g with direction := some .up } .firstFloor
  | .firstFloor => .act { g with currentFloor := 1 } .noRiders
  | .noRiders => .act { g with numRiders := 0 } .firstWait
  | .firstWait => .call (.tWait elvWait none) .spaces
  | .spaces => .act g (.isUp (maxRiders - g.numRiders))
  | .isUp s => .act g (.numEnter (if g.direction = some .up then .up else .down) s)
  | .numEnter d s => .act g (.numExit d s (g.numOf d g.currentFloor))
  | .numExit d s n => .act g (.isPresident d s n (g.numWaiters g.currentFloor))
  | .isPresident d s n x => .act g
      (if g.setOf .president = 1 ∧ g.riders .director = 0 ∧ g.riders .employee = 0 then .isBehind d
        else .isDirector d s n x)
  | .isBehind d => .act g
      (if g.reqSFP ≠ -1 ∧ d.before g.reqSFP g.currentFloor then .turn d else .isHere d)
  | .turn d => .act { g with direction := some d.opposite } (.isHere d)
  | .isHere d => .act g
      (if g.currentFloor = g.reqSFP ∧ d.before g.currentFloor g.reqEFP
        then .openDoor 1 0 d (.pickedUp d) else .isBack d)
  | .isBack d => .act g
      (if g.currentFloor = g.reqSFP ∧ d.before g.reqEFP g.currentFloor then .turnBack d
        else .isArrived d)
  | .turnBack d => .act { g with direction := some d.opposite }
      (.openDoor 1 0 d.opposite (.pickedUp d))
  | .isArrived d => .act g
      (if g.reqSFP = -1 ∧ g.currentFloor = g.reqEFP then .openDoor 0 1 d .droppedOff else .isIdle)
  | .isDirector d s n x => .act g
      (if g.setOf .president = 0 ∧ 0 < g.setOf .director ∧ g.riders .employee = 0
        then .slot d 0 0 0 else .isEmployee d s n x)
  | .slot d i e x => .act g
      (if i < 3 then
        if g.currentFloor = g.reqSFD i ∧ d.before (g.reqSFD i) (g.reqEFD i) ∧ g.waitingforEmpty = 0
          then .markEnter d i e x else .isExit d i e x
      else if 0 < e ∨ 0 < x then .openDoor e x d .served else .isIdle)
  | .markEnter d i e x =>
    .act { g with reqSFD := Function.update g.reqSFD i (-1) } (.isExit d i (e + 1) x)
  | .isExit d i e x => .act g
      (if g.reqSFD i = -1 ∧ g.currentFloor = g.reqEFD i then .markExit d i e x
        else .slot d (i + 1) e x)
  | .markExit d i e x =>
    .act { g with reqEFD := Function.update g.reqEFD i (-1) } (.slot d (i + 1) e (x + 1))
  | .isEmployee d s n x => .act g
      (if g.setOf .president = 0 ∧ g.setOf .director = 0 ∧ (0 < n ∨ 0 < x) then .isAwaited d s n x
        else .isIdle)
  | .isAwaited d s n x => .act g (.isWorth d s (if g.waitingforEmpty ≠ 0 then 0 else n) x)
  | .isWorth d s n x => .act g
      (if n ≠ 0 ∨ x ≠ 0 then .openDoor (if s < n then s else n) x d .served else .isIdle)
  | .openDoor n x d k => .act { g with state := .opened } (.enters 0 n x d k)
  | .enters i n x d k => .act g (if i < n then .sigEnter i n x d k else .exits 0 x k)
  | .sigEnter i n x d k => .call (.tSig (going d g.currentFloor) .null none) (.waitEnter i n x d k)
  | .waitEnter i n x d k => .call (.tWait elvWait none) (.enters (i + 1) n x d k)
  | .exits i x k => .act g (if i < x then .sigExit i x k else .closeDoor k)
  | .sigExit i x k => .call (.tSig (requests g.currentFloor) .null none) (.waitExit i x k)
  | .waitExit i x k => .call (.tWait elvWait none) (.exits (i + 1) x k)
  | .closeDoor k => .act { g with state := .closed }
      (match k with
        | .pickedUp d => .clearStart d
        | .droppedOff => .clearEnd
        | .served => .isIdle)
  | .clearStart d => .act { g with reqSFP := -1 } (.isArrived d)
  | .clearEnd => .act { g with reqEFP := -1 } .isIdle
  | .isIdle => .act g (if 0 = g.numRiders ∧ g.waiters = 0 then .stop else .isOpen)
  | .stop => .act { g with state := .stopped } .sleep
  | .sleep => .call (.tWait elvWait none) .isOpen
  | .isOpen => .act g (if g.state = .opened then .shut else .isWanted)
  | .shut => .act { g with state := .closed } .isWanted
  | .isWanted => .act g (if g.waiters ≠ 0 ∨ g.numRiders ≠ 0 then .isUpward else .spaces)
  | .isUpward => .act g (.isShut (if g.direction = some .up then .up else .down))
  | .isShut d => .act g (if g.state = .opened then .spaces else .move d)
  | .move d => .act { g with currentFloor := d.next g.currentFloor } (.yields d 2)
  | .yields d 0 => .call .tYield (.isEdge d)
  | .yields d (n + 1) => .call .tYield (.yields d n)
  | .isEdge .up => .act g (if g.currentFloor = maxFloors then .back else .spaces)
  | .isEdge .down => .act g (if g.currentFloor = 1 then .isFacing .down else .spaces)
  | .back => .act { g with currentFloor := g.currentFloor - 1 } (.isFacing .up)
  | .isFacing d => .act g (if g.direction = some d then .bounce d else .spaces)
  | .bounce d => .act { g with direction := some d.opposite } .spaces

/-- Where the registration of a rider begins. -/
def Rank.registers : Rank → Stand
  | .president => .count
  | _ => .storeStart

/-- `rider` and the functions that it calls. -/
def rider (g : Lift) (r : Rider) : Stand → Stmt Lift Stand
  | .start => .act g (if r.floorS < r.floorE ∨ r.floorE < r.floorS then .isStopped else .enter)
  | .isStopped => .act g (if g.state = .stopped then .sigElevator else .countFloor)
  | .sigElevator => .call (.tSig elvWait .null none) .countFloor
  | .countFloor => .act (g.bumpFloor r.dir r.floorS 1) .countWaiter
  | .countWaiter => .act { g with waiters := g.waiters + 1 }
      (if r.rank = .employee then .storeStart else .isEmpty)
  | .isEmpty => .act g
      (if g.riders .employee ≠ 0 ∨ r.rank = .president ∧ g.riders .director ≠ 0 then .joinEmpty
        else r.rank.registers)
  | .joinEmpty => .act { g with waitingforEmpty := g.waitingforEmpty + 1 } .awaitEmpty
  | .awaitEmpty => .call (.tWait emptyElevator none) .leaveEmpty
  | .leaveEmpty => .act { g with waitingforEmpty := g.waitingforEmpty - 1 } r.rank.registers
  | .count => .act { g with setOf := bump g.setOf r.rank 1 }
      (if r.rank = .president then .storeStart else .await)
  | .storeStart => .act (g.storeStart r.rank r.floorS) .storeEnd
  | .storeEnd => .act (g.storeEnd r.rank r.floorE)
      (if r.rank = .president then .await else .count)
  | .await => .call (.tWait (going r.dir r.floorS) none) .uncountFloor
  | .uncountFloor => .act (g.bumpFloor r.dir r.floorS (-1)) .enter
  | .enter => .act { g with numRiders := g.numRiders + 1 } .enterRank
  | .enterRank => .act { g with riders := bump g.riders r.rank 1 } .uncountWaiter
  | .uncountWaiter => .act { g with waiters := g.waiters - 1 } .request
  | .request => .act { g with numWaiters := bump g.numWaiters r.floorE 1 } .sigRequest
  | .sigRequest => .call (.tSig elvWait .null none) .awaitFloor
  | .awaitFloor => .call (.tWait (requests r.floorE) none) .leaveFloor
  | .leaveFloor => .act { g with numWaiters := bump g.numWaiters g.currentFloor (-1) } .exit
  | .exit => .act { g with numRiders := g.numRiders - 1 } .exitRank
  | .exitRank => .act { g with riders := bump g.riders r.rank (-1) } .uncount
  | .uncount => .act { g with setOf := bump g.setOf r.rank (-1) }
      (if r.rank = .director then .isVacant else .clearStart)
  | .clearStart => .act (g.storeStart r.rank (-1)) .clearEnd
  | .clearEnd => .act (g.storeEnd r.rank (-1)) .isVacant
  | .isVacant => .act g
      (if g.riders .employee = 0 ∧ g.riders .director = 0 then .broadcast 0 else .sigExit)
  | .broadcast i =>
    if i < 5 then .call (.tSig emptyElevator .null none) (.broadcast (i + 1)) else .act g .sigExit
  | .sigExit => .call (.tSig elvWait .null none) .exited
  | .exited => .call (.tExit 0) .gone
  | .gone => .ret

/-- The statements of one function as statements of the program. -/
def inBody {L L' : Type} (f : L → L') : Stmt Lift L → Stmt Lift L'
  | .act shared next => .act shared (f next)
  | .call op next => .call op (f next)
  | .ret => .ret

/-- What `firstThread` sets before there is another thread. -/
def Lift.cleared (g : Lift) : Lift :=
  { g with
    numOf := fun _ _ => 0, waiters := 0, setOf := fun _ => 0, reqSFP := -1, reqEFP := -1
    waitingforEmpty := 0, numWaiters := fun _ => 0, riders := fun _ => 0, numRiders := 0 }

/-- The program: function 1 is `ElevatorThread`, the functions 2, 3 and 4 are `rider`, and the
others are `firstThread`. -/
def program (l : List Arrival) : Program Lift Place where
  body f v := match f with
    | 1 => .post .start
    | 2 => .rider (riderOf .president v) .start
    | 3 => .rider (riderOf .director v) .start
    | 4 => .rider (riderOf .employee v) .start
    | _ => .create 35
  code g
    | .create 0 => .act g .clear
    | .create (n + 1) => .call (.condCreate none true) (.create n)
    | .clear => .act g.cleared .elevator
    | .elevator => .call (.tFork 1 .null 5) (.arrivals l)
    | .arrivals [] => .ret
    | .arrivals (.rider r :: rest) =>
      .call (.tFork r.rank.rider r.arg r.rank.priority) (.arrivals rest)
    | .arrivals (.yield :: rest) => .call .tYield (.arrivals rest)
    | .post p => inBody .post (elevatorThread g p)
    | .rider r p => inBody (.rider r) (rider g r p)

/-- What `main` creates. -/
def objects : List MainCall := [.lock]

/-- The values of the globals when the program is loaded. -/
def opened : Lift where
  numOf := fun _ _ => 0
  waiters := 0
  setOf := fun _ => 0
  reqSFP := 0
  reqEFP := 0
  reqSFD := fun _ => 0
  reqEFD := fun _ => 0
  reqSFE := fun _ => 0
  reqEFE := fun _ => 0
  waitingforEmpty := 0
  direction := none
  currentFloor := 0
  state := .moving
  numRiders := 0
  riders := fun _ => 0
  numWaiters := fun _ => 0

/-- The program starts: `main` creates the first thread with priority 5. -/
def Starts (l : List Arrival) (w : World Lift Place) : Prop :=
  World.Opens (program l) objects opened w ∧ (w.sys.tcb 1).priority = 5

theorem starts_of_boot {l : List Arrival} {w : World Lift Place}
    (h : World.boot (program l) objects opened 5 = some w) : Starts l w := by
  obtain ⟨s, hs, rfl⟩ := Option.map_eq_some_iff.mp h
  have hprio : (booted objects 5).all (fun s => (s.tcb 1).priority = 5) = true := by decide +kernel
  rw [hs, Option.all_some] at hprio
  exact ⟨⟨{}, 5, hs, rfl, rfl⟩, of_decide_eq_true hprio⟩

/-- A run of the elevator is found by computing it. -/
theorem exists_start (l : List Arrival) (g : Grain) (ok : Tick → World Lift Place → Prop)
    [∀ tick w, Decidable (ok tick w)] (ticks : List Tick) (good : World Lift Place → Bool)
    (h : ((World.boot (program l) objects opened 5).bind
      (play (World.step g (program l)) ok ticks)).any good = true) :
    ∃ w₀ w, Starts l w₀ ∧ Run (World.step g (program l)) ok w₀ w ∧ good w = true := by
  obtain ⟨w, hw, hgood⟩ := (Option.any_eq_true ..).mp h
  obtain ⟨w₀, h₀, hplay⟩ := Option.bind_eq_some_iff.mp hw
  obtain ⟨path, hpath, hall⟩ := path_of_play hplay
  exact ⟨w₀, w, starts_of_boot h₀, hpath.run hall, hgood⟩

end UserThreads.Elevator
