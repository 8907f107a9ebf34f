import Aesd.Semantics.Execution
import Aesd.Semantics.Linked
import Mathlib.Logic.Function.Basic

/-! The accept loop of the server with its list of thread records. The main
thread and the handler threads take turns in any order; of a handler the loop
knows what it does to its record. Memory, descriptors and threads are granted,
and no signal arrives. -/
namespace Aesd
open Memory Execution Linked

/-- The parameters of a thread. Threads and connections have the number of
the `accept` that they came from. -/
structure ThreadsDef where
  isDone : Bool
  ID : Nat
  threadFD : Nat
  deriving DecidableEq, Repr

abbrev ListDataDef := Node ThreadsDef

/-- How far a handler thread is. It is `done` from the assignment to `isDone`
on, and `joined` once its return was collected. -/
inductive HandlerAt where
  | absent
  | running
  | done
  | returned
  | joined
  deriving DecidableEq, Repr

/-- Where the main thread is: in front of `accept`, at the test of the loop
over the list, or in front of the join of a record that is done. -/
inductive MainAt where
  | accepting
  | testing
  | joining
  deriving DecidableEq, Repr

/-- The connections that are open, by descriptor, and those that a `close`
ended, in order. -/
structure Descriptors where
  holder : List (Nat × Nat)
  closed : List Nat
  deriving DecidableEq, Repr

/-- A descriptor that is in use is not returned again. -/
def Descriptors.accept (descriptors : Descriptors) (fd connection : Nat) : Option Descriptors :=
  if (descriptors.holder.lookup fd).isSome then none
  else some { descriptors with holder := (fd, connection) :: descriptors.holder }

/-- Closing a descriptor that is not in use does nothing. -/
def Descriptors.close (descriptors : Descriptors) (fd : Nat) : Descriptors :=
  match descriptors.holder.lookup fd with
  | none => descriptors
  | some connection =>
      ⟨descriptors.holder.filter fun entry => entry.1 ≠ fd, descriptors.closed ++ [connection]⟩

/-- Why a step is not taken: it is not the one that the code comes to, it
waits for a thread, or it accesses memory that is not live, walks a list
without an end or joins what can not be joined. -/
inductive LoopHalt where
  | order
  | waits
  | fault
  deriving DecidableEq, Repr

structure AcceptLoop where
  heap : Heap ListDataDef
  head : Option Nat
  dataPointer : Option Nat
  main : MainAt
  accepted : Nat
  handler : Nat → HandlerAt
  params : Nat → Nat
  descriptors : Descriptors

def AcceptLoop.initial : AcceptLoop :=
  ⟨Heap.empty, none, none, .accepting, 0, fun _ => .absent, fun _ => 0, ⟨[], []⟩⟩

/-- One step of the main thread or of a handler. `junk` is what the memory of
a new record contains; `transfer` is a `recv` or a `send`. -/
inductive LoopAction where
  | accept (fd : Nat) (junk : ListDataDef)
  | test
  | join
  | transfer (thread : Nat)
  | setDone (thread : Nat)
  | exit (thread : Nat)

inductive LoopEvent where
  | accepted (thread record fd : Nat)
  | joined (thread record : Nat)
  | transferred (thread fd : Nat)
  | none
  deriving DecidableEq, Repr

def orFault {α : Type} (result : Option α) : Except LoopHalt α :=
  match result with
  | none => .error .fault
  | some value => .ok value

/-- An assignment to the thread parameters of a record. -/
def assign (pointer : Option Nat) (change : ThreadsDef → ThreadsDef) (heap : Heap ListDataDef) :
    Except LoopHalt (Heap ListDataDef) := do
  let node ← orFault (read heap pointer)
  let id ← orFault pointer
  orFault (write heap id { node with data := change node.data })

def freeRecord (id : Nat) (heap : Heap ListDataDef) : Except LoopHalt (Heap ListDataDef) :=
  if heap.Live id then .ok (heap.free id) else .error .fault

/-- `pthread_join` waits for a thread that has not returned; of a thread that
does not exist, or was joined before, it may not be called. -/
def pthreadJoin (thread : Nat) (state : AcceptLoop) : Except LoopHalt AcceptLoop :=
  match state.handler thread with
  | .returned => .ok { state with handler := Function.update state.handler thread .joined }
  | .running => .error .waits
  | .done => .error .waits
  | .absent => .error .fault
  | .joined => .error .fault

namespace AcceptLoop

/-- From `accept` to the start of the loop over the list. -/
def acceptConnection (fd : Nat) (junk : ListDataDef) (state : AcceptLoop) :
    Except LoopHalt (LoopEvent × AcceptLoop) :=
  match state.main, state.descriptors.accept fd state.accepted with
  | .accepting, some descriptors => do
      let thread := state.accepted
      let record := state.heap.next
      let heap := state.heap.alloc [junk]
      let (heap, head) ← orFault (insertHead heap state.head record)
      let heap ← assign (some record) (fun params => { params with threadFD := fd }) heap
      let heap ← assign (some record) (fun params => { params with isDone := false }) heap
      let heap ← assign (some record) (fun params => { params with ID := thread }) heap
      return (.accepted thread record fd, { state with
        heap, head, dataPointer := head, main := .testing, accepted := thread + 1,
        handler := Function.update state.handler thread .running,
        params := Function.update state.params thread record, descriptors })
  | _, _ => .error .order

/-- The test of the loop, and its body up to the join. -/
def testRecord (state : AcceptLoop) : Except LoopHalt (LoopEvent × AcceptLoop) :=
  match state.main, state.dataPointer with
  | .testing, none => .ok (.none, { state with main := .accepting })
  | .testing, some _ => do
      let node ← orFault (read state.heap state.dataPointer)
      if node.data.isDone then return (.none, { state with main := .joining })
      else return (.none, { state with dataPointer := node.next })
  | _, _ => .error .order

/-- Take out a record whose thread is joined, and free it. There are as many
records as connections at most, which bounds the walk to it. -/
def reap (record : Nat) (state : AcceptLoop) : Except LoopHalt AcceptLoop := do
  let (heap, head) ← orFault (Linked.remove state.heap state.head record state.accepted)
  let heap ← freeRecord record heap
  return { state with heap, head }

/-- The body of the loop from the join on; it leaves the loop. -/
def joinThread (state : AcceptLoop) : Except LoopHalt (LoopEvent × AcceptLoop) :=
  match state.main, state.dataPointer with
  | .joining, some record => do
      let node ← orFault (read state.heap state.dataPointer)
      let state ← pthreadJoin node.data.ID state
      let state ← state.reap record
      return (.joined node.data.ID record, { state with main := .accepting })
  | _, _ => .error .order

/-- A handler uses its parameters, sets `isDone`, and later returns. -/
def handlerStep (action : LoopAction) (thread : Nat) (state : AcceptLoop) :
    Except LoopHalt (LoopEvent × AcceptLoop) :=
  match action, state.handler thread with
  | .transfer _, .running => do
      let node ← orFault (read state.heap (some (state.params thread)))
      return (.transferred thread node.data.threadFD, state)
  | .setDone _, .running => do
      let heap ← assign (some (state.params thread)) (fun params => { params with isDone := true }) state.heap
      return (.none, { state with heap, handler := Function.update state.handler thread .done })
  | .exit _, .done => .ok (.none, { state with handler := Function.update state.handler thread .returned })
  | _, _ => .error .order

def step : Machine LoopHalt LoopAction LoopEvent AcceptLoop
  | .accept fd junk, state => state.acceptConnection fd junk
  | .test, state => state.testRecord
  | .join, state => state.joinThread
  | .transfer thread, state => state.handlerStep (.transfer thread) thread
  | .setDone thread, state => state.handlerStep (.setDone thread) thread
  | .exit thread, state => state.handlerStep (.exit thread) thread

/-- The loop of `exitFunction` over the list: each round closes and takes out
the first record. -/
def closeRecords : Nat → AcceptLoop → Except LoopHalt AcceptLoop
  | left, state =>
      match left, state.head with
      | _, none => .ok state
      | 0, some _ => .error .fault
      | left + 1, some record => do
          let node ← orFault (read state.heap state.head)
          let descriptors := state.descriptors.close node.data.threadFD
          let state ← pthreadJoin node.data.ID { state with descriptors }
          let state ← state.reap record
          closeRecords left state

/-- No function of the server calls it. -/
def exitFunction (fileDescriptor socketAcceptDescriptor socketDescriptor : Nat) (state : AcceptLoop) :
    Except LoopHalt AcceptLoop :=
  let descriptors := state.descriptors.close fileDescriptor
  let descriptors := descriptors.close socketAcceptDescriptor
  let descriptors := descriptors.close socketDescriptor
  closeRecords state.accepted { state with descriptors }

end AcceptLoop
end Aesd
