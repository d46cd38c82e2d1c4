import UserThreads.Runs
import UserThreads.LinkedCells
import UserThreads.Queue
import UserThreads.FifoCalls
import UserThreads.Emptying
import UserThreads.Threads
import UserThreads.Routines
import UserThreads.Transitions
import UserThreads.Stacks
import UserThreads.Executions
import UserThreads.Masking
import UserThreads.Points
import UserThreads.MutualExclusion
import UserThreads.QueueLedger
import UserThreads.MultilevelQueue
import UserThreads.Epilogue
import UserThreads.ReadyQueues
import UserThreads.ThreadStart
import UserThreads.StackSlots
import UserThreads.Tids
import UserThreads.Atomicity
import UserThreads.Priorities
import UserThreads.WaitSignal
import UserThreads.SignalOrder
import UserThreads.Places
import UserThreads.Joining
import UserThreads.Placement
import UserThreads.Semaphores
import UserThreads.Endings
import UserThreads.JoinTable
import UserThreads.JoinFree
import UserThreads.RoundRobin
import UserThreads.ForkPreemption
import UserThreads.TableBounds
import UserThreads.Tallies
import UserThreads.Clients
import UserThreads.Turns
import UserThreads.CriticalSections
import UserThreads.WaitLocks
import UserThreads.BoundedBuffer
import UserThreads.Bridge
import UserThreads.FairBridge
import UserThreads.Batches
import UserThreads.Beats
import UserThreads.Elevator
import UserThreads.ElevatorRoles
import UserThreads.ElevatorBursts
import UserThreads.ElevatorVisits
import UserThreads.ElevatorCalls
import UserThreads.ElevatorCounts
import UserThreads.ElevatorFloors
import UserThreads.ElevatorRides
import UserThreads.ElevatorSlots
import UserThreads.ElevatorRanks
import UserThreads.ElevatorCapacity
import UserThreads.Resting
import UserThreads.Standstill
import UserThreads.FoodServices
import UserThreads.Faults
import UserThreads.TimeSlicing
import UserThreads.Sections
import UserThreads.SoloRuns
import UserThreads.QueueNodes
import UserThreads.Switches
import UserThreads.NestedForks
import UserThreads.NestedOutput
