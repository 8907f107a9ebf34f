import Aesd.Driver.Runs
import Aesd.Server.Packet
import Mathlib.Logic.Function.Basic

/-! The handler threads of the server from the moment they have a packet. The
mutex, the stream of the data file and its device are shared; one step of a
thread is one call into them. -/
namespace Aesd
open Kernel Execution

def ioctlString : List Byte :=
  ['A', 'E', 'S', 'D', 'C', 'H', 'A', 'R', '_', 'I', 'O', 'C', 'S', 'E', 'E', 'K', 'T', 'O', ':'].map
    fun char => char.toNat.toUInt8

/-- What a thread has put together: a string whose length an `int` counts. -/
structure Packet where
  bytes : List Byte
  noNul : 0 ∉ bytes
  short : (bytes.length : Int) < INT_MAX

/-- The comparison with the prefix of a seek command. -/
def Packet.isSeek (packet : Packet) : Bool := ioctlString.isPrefixOf packet.bytes

def isSpace (byte : Byte) : Bool := byte = 32 ∨ 9 ≤ byte ∧ byte ≤ 13
def isDigit (byte : Byte) : Bool := 48 ≤ byte ∧ byte ≤ 57

def decimal (digits : List Byte) : Nat :=
  digits.foldl (fun value digit => 10 * value + (digit.toNat - 48)) 0

/-- The conversion `%d`: white space, a sign, digits. The value is kept at
the bounds of a `long` and stored in 32 bits; without a digit nothing is. -/
def scanInt (input : List Byte) : Option (UInt32 × List Byte) :=
  let input := input.dropWhile isSpace
  let negative := input.head? = some 45
  let input := if negative ∨ input.head? = some 43 then input.tail else input
  let digits := input.takeWhile isDigit
  if digits = [] then none
  else
    let value : Int := if negative then -decimal digits else decimal digits
    some (UInt32.ofInt (max (-2 ^ 63) (min value (2 ^ 63 - 1))), input.dropWhile isDigit)

/-- `sscanf` with the format `AESDCHAR_IOCSEEKTO:%d,%d`. It stops at the first
mismatch, and what it has not come to keeps the value it had. -/
def sscanf (input : List Byte) (seekParams : AesdSeekto) : AesdSeekto :=
  if ioctlString.isPrefixOf input = false then seekParams
  else match scanInt (input.drop ioctlString.length) with
  | none => seekParams
  | some (writeCmd, rest) =>
      if rest.head? ≠ some 44 then { seekParams with writeCmd }
      else match scanInt rest.tail with
      | none => { seekParams with writeCmd }
      | some (writeCmdOffset, _) => ⟨writeCmd, writeCmdOffset⟩

/-- The arguments of the seek call for a packet, given what was on the stack
before; none for a packet that is written to the file. -/
def Packet.ioctlArgs (packet : Packet) (stack : AesdSeekto) : Option AesdSeekto :=
  if packet.isSeek then some (sscanf packet.bytes stack) else none

/-- Where a thread is. While it writes, `left` is what the stream has not yet
passed on; while it reads, `buffered` is what the stream has read ahead. -/
inductive Phase where
  | ready
  | locked
  | opened
  | writing (left : List Byte)
  | reading (buffered : List Byte)
  | drained
  | closed
  | finished
  deriving DecidableEq, Repr

/-- One call of a thread, with what the environment decides about it. `flush`
is a write that the stream issues and `fread` a read to fill its buffer;
`send` passes one byte on. -/
inductive Call where
  | lock
  | fopen
  | fwrite
  | flush (size copied : Nat) (junk : Nat → Byte)
  | rewind
  | ioctl (stack : AesdSeekto) (interrupted : Bool) (stray : AesdBufferEntry)
  | fread (count : Nat)
  | send
  | fclose
  | unlock

structure Action where
  thread : Nat
  call : Call

/-- Why a thread does not go on: the mutex is held, the call is not the one
that its code comes to, or the device does not return. -/
inductive Halt where
  | mutex
  | order
  | device (stop : Stop)
  deriving DecidableEq, Repr

/-- The stream of a thread is open on the file of the same number. -/
structure Server where
  system : System
  mutexLock : Option Nat
  phase : Nat → Phase
  sent : Nat → List Byte

def Server.initial : Server := ⟨System.initial, none, fun _ => .ready, fun _ => []⟩

def Server.moveTo (server : Server) (thread : Nat) (phase : Phase) : Server :=
  { server with phase := Function.update server.phase thread phase }

/-- A call that asks the device, and where its answer leads to. -/
def Server.perform (server : Server) (thread : Nat) (op : Op) (phase : Reply → Phase) :
    Except Halt (Reply × Server) :=
  match System.exec op server.system with
  | .error stop => .error (.device stop)
  | .ok (reply, system) => .ok (reply, { server with system }.moveTo thread (phase reply))

/-- The code behind the receive loop, for the packet of each thread. -/
def threadHandler (packet : Nat → Packet) : Machine Halt Action Reply Server
  | ⟨thread, call⟩, server =>
    match call, server.phase thread with
    | .lock, .ready =>
        if server.mutexLock = none then
          .ok (⟨0, []⟩, { server with mutexLock := some thread }.moveTo thread .locked)
        else .error .mutex
    | .fopen, .locked => server.perform thread (.openFile thread) fun _ => .opened
    | .ioctl stack interrupted stray, .opened =>
        match (packet thread).ioctlArgs stack with
        | some seekParams =>
            server.perform thread (.ioctl thread ⟨AESDCHAR_IOCSEEKTO, some seekParams, interrupted, stray⟩)
              fun _ => .reading []
        | none => .error .order
    | .fwrite, .opened =>
        if (packet thread).isSeek then .error .order
        else .ok (⟨(packet thread).bytes.length, []⟩, server.moveTo thread (.writing (packet thread).bytes))
    | .flush size copied junk, .writing left =>
        if left = [] then .error .order
        else
          server.perform thread (.write thread ⟨some (left.take size), false, true, copied, junk⟩)
            fun reply => .writing (left.drop reply.retval.toNat)
    | .rewind, .writing [] => server.perform thread (.llseek thread 0 SEEK_SET) fun _ => .reading []
    | .fread count, .reading [] =>
        if count = 0 then .error .order
        else
          server.perform thread (.read thread ⟨true, count, false⟩)
            fun reply => if 0 < reply.retval then .reading reply.data else .drained
    | .send, .reading (byte :: rest) =>
        .ok (⟨1, [byte]⟩, { server with
          sent := Function.update server.sent thread (server.sent thread ++ [byte]) }.moveTo thread
            (.reading rest))
    | .fclose, .drained => server.perform thread (.release thread) fun _ => .closed
    | .unlock, .closed => .ok (⟨0, []⟩, { server with mutexLock := none }.moveTo thread .finished)
    | _, _ => .error .order

variable {server next : Server} {thread other : Nat} {phase : Phase} {junk : Nat → Nat → Byte}
  {dest src out : List Byte} {count : Nat} {state result : Receiving} {chunk : Chunk} {complete : Bool}
  {events : List Recv}

/-- The call is made for every packet with the prefix, whatever `sscanf` makes
of the rest, and for no other. -/
theorem ioctlArgs_eq_some_iff {packet : Packet} {stack seekCmd : AesdSeekto} :
    packet.ioctlArgs stack = some seekCmd ↔ packet.isSeek = true ∧ sscanf packet.bytes stack = seekCmd := by
  unfold Packet.ioctlArgs
  split
  · next hSeek => simp [hSeek]
  · next hData => simp [hData]

theorem ioctlArgs_of_isSeek {packet : Packet} {stack : AesdSeekto} (h : packet.isSeek = true) :
    packet.ioctlArgs stack = some (sscanf packet.bytes stack) :=
  ioctlArgs_eq_some_iff.mpr ⟨h, rfl⟩

@[simp] theorem moveTo_phase_self : (server.moveTo thread phase).phase thread = phase := by
  simp [Server.moveTo]

theorem moveTo_phase_of_ne (h : other ≠ thread) :
    (server.moveTo thread phase).phase other = server.phase other := by
  simp [Server.moveTo, h]

/-- A call that asks the device is answered by it. -/
theorem perform_ok {op : Op} {answered : Reply → Phase} {reply : Reply}
    (h : server.perform thread op answered = .ok (reply, next)) :
    ∃ system, System.exec op server.system = .ok (reply, system) ∧
      next = { server with system }.moveTo thread (answered reply) := by
  unfold Server.perform at h
  split at h
  · cases h
  · next hExec =>
    cases h
    exact ⟨_, hExec, rfl⟩

theorem perform_phase {op : Op} {answered : Reply → Phase} {reply : Reply}
    (h : server.perform thread op answered = .ok (reply, next)) :
    next.phase = Function.update server.phase thread (answered reply) := by
  obtain ⟨system, _, rfl⟩ := perform_ok h
  rfl

/-- A call moves its own thread. -/
theorem threadHandler_phase {packet : Nat → Packet} {call : Call} {reply : Reply} {before after : Server}
    (h : threadHandler packet ⟨thread, call⟩ before = .ok (reply, after)) :
    ∃ phase, after.phase = Function.update before.phase thread phase ∧
      (phase = .finished ↔ call = .unlock) ∧ (before.phase thread = .closed ↔ call = .unlock) := by
  simp only [threadHandler] at h
  split at h
  · next hPhase =>
    split at h
    · cases h
      exact ⟨.locked, rfl, by simp, by simp [hPhase]⟩
    · cases h
  · next hPhase => exact ⟨_, perform_phase h, by simp, by simp [hPhase]⟩
  · next hPhase =>
    split at h
    · exact ⟨_, perform_phase h, by simp, by simp [hPhase]⟩
    · cases h
  · next hPhase =>
    split at h
    · cases h
    · cases h
      exact ⟨_, rfl, by simp, by simp [hPhase]⟩
  · next hPhase =>
    split at h
    · cases h
    · exact ⟨_, perform_phase h, by simp, by simp [hPhase]⟩
  · next hPhase => exact ⟨_, perform_phase h, by simp, by simp [hPhase]⟩
  · next hPhase =>
    split at h
    · cases h
    · refine ⟨_, perform_phase h, ?_, by simp [hPhase]⟩
      split <;> simp
  · next hPhase =>
    cases h
    exact ⟨_, rfl, by simp, by simp [hPhase]⟩
  · next hPhase => exact ⟨_, perform_phase h, by simp, by simp [hPhase]⟩
  · next hPhase =>
    cases h
    exact ⟨_, rfl, by simp, by simp [hPhase]⟩
  · cases h

theorem threadHandler_lock {packet : Nat → Packet} {reply : Reply} {before after : Server}
    (h : threadHandler packet ⟨thread, .lock⟩ before = .ok (reply, after)) :
    before.phase thread = .ready ∧ before.mutexLock = none ∧
      after = { before with mutexLock := some thread }.moveTo thread .locked := by
  cases hPhase : before.phase thread with
  | ready =>
      simp only [threadHandler, hPhase] at h
      split at h
      · next hFree =>
        cases h
        exact ⟨rfl, hFree, rfl⟩
      · cases h
  | _ =>
      simp only [threadHandler, hPhase] at h
      cases h

theorem threadHandler_unlock {packet : Nat → Packet} {reply : Reply} {before after : Server}
    (h : threadHandler packet ⟨thread, .unlock⟩ before = .ok (reply, after)) :
    before.phase thread = .closed ∧ after = { before with mutexLock := none }.moveTo thread .finished := by
  cases hPhase : before.phase thread with
  | closed =>
      simp only [threadHandler, hPhase] at h
      cases h
      exact ⟨rfl, rfl⟩
  | _ =>
      simp only [threadHandler, hPhase] at h
      cases h

/-- Every other call is one of a thread in its turn, and sends to no other
client. -/
theorem threadHandler_inside {packet : Nat → Packet} {call : Call} {reply : Reply} {before after : Server}
    (hLock : call ≠ .lock) (hUnlock : call ≠ .unlock)
    (h : threadHandler packet ⟨thread, call⟩ before = .ok (reply, after)) :
    before.phase thread ≠ .ready ∧ before.phase thread ≠ .finished ∧ after.mutexLock = before.mutexLock ∧
      ∀ other, other ≠ thread → after.sent other = before.sent other := by
  have hAsked : ∀ {op : Op} {answered : Reply → Phase}, before.perform thread op answered = .ok (reply, after) →
      after.mutexLock = before.mutexLock ∧ ∀ other, other ≠ thread → after.sent other = before.sent other := by
    intro op answered hPerform
    obtain ⟨system, _, rfl⟩ := perform_ok hPerform
    exact ⟨rfl, fun _ _ => rfl⟩
  simp only [threadHandler] at h
  split at h
  · exact absurd rfl hLock
  · next hPhase => exact ⟨by simp [hPhase], by simp [hPhase], hAsked h⟩
  · next hPhase =>
    split at h
    · exact ⟨by simp [hPhase], by simp [hPhase], hAsked h⟩
    · cases h
  · next hPhase =>
    split at h
    · cases h
    · cases h
      exact ⟨by simp [hPhase], by simp [hPhase], rfl, fun _ _ => rfl⟩
  · next hPhase =>
    split at h
    · cases h
    · exact ⟨by simp [hPhase], by simp [hPhase], hAsked h⟩
  · next hPhase => exact ⟨by simp [hPhase], by simp [hPhase], hAsked h⟩
  · next hPhase =>
    split at h
    · cases h
    · exact ⟨by simp [hPhase], by simp [hPhase], hAsked h⟩
  · next hPhase =>
    cases h
    exact ⟨by simp [hPhase], by simp [hPhase], rfl, fun other hOther => Function.update_of_ne hOther _ _⟩
  · next hPhase => exact ⟨by simp [hPhase], by simp [hPhase], hAsked h⟩
  · exact absurd rfl hUnlock
  · cases h

/-- A handler looks at its own packet only. -/
theorem threadHandler_congr {packet packet' : Nat → Packet} {action : Action} {before : Server}
    (h : packet' action.thread = packet action.thread) :
    threadHandler packet' action before = threadHandler packet action before := by
  obtain ⟨thread, call⟩ := action
  simp only [threadHandler]
  simp only at h
  rw [h]

/-- A copy does not change the size of its destination. -/
theorem strncat_length (h : strncat dest src count = .ok out) : 0 ∈ out ∧ out.length = dest.length := by
  unfold strncat at h
  split at h
  · cases h
  · split at h
    · cases h
    · dsimp only at h
      split at h
      · cases h
      · next hFits =>
        cases h
        refine ⟨by simp, ?_⟩
        simp only [List.length_append, List.length_drop] at hFits ⊢
        omega

/-- The output buffer is a string in a block that an `int` can count. -/
def Receiving.Sized (state : Receiving) : Prop :=
  0 ∈ state.outputBuffer ∧ (state.outputBuffer.length : Int) ≤ INT_MAX

theorem receiveChunk_sized (h : receiveChunk junk chunk state = .ok (complete, result)) :
    result.Sized := by
  simp only [receiveChunk] at h
  split at h
  · cases h
  · next hRange =>
    obtain ⟨out, hOut, hResult⟩ := bind_ok_iff.mp h
    cases hResult
    obtain ⟨hZero, hLength⟩ := strncat_length hOut
    rw [realloc_length] at hLength
    have hMax : 0 ≤ INT_MAX := by decide
    exact ⟨hZero, show (out.length : Int) ≤ INT_MAX by omega⟩

theorem receiveLoop_sized (hState : state.Sized) (h : receiveLoop junk events state = .ok out) :
    0 ∈ out ∧ (out.length : Int) ≤ INT_MAX := by
  induction events generalizing state with
  | nil => cases h
  | cons event rest ih =>
      cases event with
      | failed => cases h
      | closed =>
          cases h
          exact hState
      | data chunk =>
          obtain ⟨⟨complete, next⟩, hChunk, hRest⟩ := bind_ok_iff.mp h
          have hNext := receiveChunk_sized hChunk
          cases complete with
          | true =>
              cases hRest
              exact hNext
          | false => exact ih hNext hRest

/-- Whatever the receive loop ends with is a packet. -/
theorem packet_of_assemble (h : assemble junk events = .ok out) :
    ∃ packet : Packet, packet.bytes = cstring out := by
  have hStart : (⟨List.replicate BUFFER_SIZE 0, 0⟩ : Receiving).Sized := ⟨by decide, by decide⟩
  obtain ⟨hZero, hLength⟩ := receiveLoop_sized hStart h
  refine ⟨⟨cstring out, Delimited.not_mem_before, ?_⟩, rfl⟩
  have hInside := List.idxOf_lt_length_of_mem hZero
  rw [cstring, Delimited.before_length]
  omega

end Aesd
