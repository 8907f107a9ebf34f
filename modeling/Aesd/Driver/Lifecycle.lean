import Aesd.Driver.Leaks
import Aesd.Driver.SameLog

/-! The module in the kernel: it is loaded and unloaded any number of times,
and in between its files are used. Memory that it does not give back stays
allocated from one life to the next. -/
namespace Aesd
open Kernel Word Memory Execution CommandLog

/-- What the kernel answers to the two registrations of a load. An error is a
negative number, and without one `major` was reserved. -/
structure LoadCall where
  region : Int
  major : Nat
  setup : Int
  regionRange : region ≤ 0
  setupRange : setup ≤ 0

inductive ModuleOp where
  | load (call : LoadCall)
  | unload
  | file (op : Op)

/-- Why a step is not taken: the kernel does not allow it now, or the device
does not return. -/
inductive ModuleHalt where
  | order
  | device (stop : Stop)
  deriving DecidableEq, Repr

/-- A device that a module can be made of: what its set-up, its clean-up and
an operation on one of its files do. -/
structure DeviceKind (Device : Type) where
  init : Device → Device
  cleanup : Device → Except Stop Device
  exec : Machine Stop Op Reply Device

/-- `regions` are the device numbers reserved by the module, `cdev` is the one
under which the device can be opened, and `users` are its open files. -/
structure KernelModule (Device : Type) where
  device : Device
  loaded : Bool
  aesdMajor : Nat
  regions : List Nat
  cdev : Option Nat
  users : List Nat

variable {Device : Type}

def aesdSetupCdev (err : Int) (state : KernelModule Device) : Int × KernelModule Device :=
  (err, if err = 0 then { state with cdev := some state.aesdMajor } else state)

namespace KernelModule

/-- The set-up with its registrations. Where no device number was assigned,
the major number is that of zero. -/
def aesdInitModule (kind : DeviceKind Device) (call : LoadCall) (state : KernelModule Device) :
    Int × KernelModule Device :=
  let aesdMajor := if call.region < 0 then 0 else call.major
  if call.region < 0 then (call.region, { state with aesdMajor })
  else
    let state := { state with
      aesdMajor, regions := aesdMajor :: state.regions, device := kind.init state.device }
    let (result, state) := aesdSetupCdev call.setup state
    if result ≠ 0 then (result, { state with regions := state.regions.erase aesdMajor })
    else (result, state)

def aesdCleanupModule (kind : DeviceKind Device) (state : KernelModule Device) : Except Stop (KernelModule Device) := do
  let device ← kind.cleanup state.device
  return { state with device, cdev := none, regions := state.regions.erase state.aesdMajor }

end KernelModule

/-- The open files after an operation. Only an open file can be used. -/
def Op.usersAfter (op : Op) (users : List Nat) : Option (List Nat) :=
  match op with
  | .openFile fd => if fd ∈ users then none else some (fd :: users)
  | .release fd => if fd ∈ users then some (users.erase fd) else none
  | .read fd _ => if fd ∈ users then some users else none
  | .write fd _ => if fd ∈ users then some users else none
  | .llseek fd _ _ => if fd ∈ users then some users else none
  | .ioctl fd _ => if fd ∈ users then some users else none

/-- One step of the kernel with the module: it is loaded once at a time, it is
not unloaded under an open file, and it is reached through its device only. -/
def KernelModule.step (kind : DeviceKind Device) : Machine ModuleHalt ModuleOp Reply (KernelModule Device)
  | .load call, state =>
      if state.loaded then .error .order
      else
        let (result, state) := state.aesdInitModule kind call
        .ok (⟨result, []⟩, { state with loaded := result = 0 })
  | .unload, state =>
      if state.loaded = false ∨ state.users ≠ [] then .error .order
      else match state.aesdCleanupModule kind with
      | .error stop => .error (.device stop)
      | .ok state => .ok (⟨0, []⟩, { state with loaded := false })
  | .file op, state =>
      match state.cdev, op.usersAfter state.users with
      | some _, some users =>
          match kind.exec op state.device with
          | .error stop => .error (.device stop)
          | .ok (reply, device) => .ok (reply, { state with device, users })
      | _, _ => .error .order

/-- The driver. A new life starts with no file open. -/
def driver : DeviceKind System where
  init := fun system => ⟨(aesdInitModule 0 0 system.world).2, fun _ => ⟨0⟩⟩
  cleanup := fun system => do
    let world ← aesdCleanupModule system.world
    return { system with world }
  exec := System.exec

/-- A log that every life starts anew. -/
def logDevice : DeviceKind LogDevice where
  init := fun _ => LogDevice.initial
  cleanup := fun device => .ok device
  exec := LogDevice.exec

/-- Before the first load the static storage of the module is zero. -/
def KernelModule.boot (device : Device) : KernelModule Device := ⟨device, false, 0, [], none, []⟩

def System.boot : System := ⟨⟨Heap.empty, ⟨aesdCircularBufferInit, false, .null, 0, 0⟩⟩, fun _ => ⟨0⟩⟩

/-- The same module with another device. -/
def KernelModule.withDevice {Other : Type} (state : KernelModule Device) (device : Other) :
    KernelModule Other :=
  ⟨device, state.loaded, state.aesdMajor, state.regions, state.cdev, state.users⟩

def ModuleOp.InDomain : ModuleOp → Prop
  | .file op => op.InDomain
  | _ => True

def ModuleOp.offered : ModuleOp → Nat
  | .file op => op.offered
  | _ => 0

/-- The registrations are those of one successful load, or none at all. -/
structure Registered (state : KernelModule Device) : Prop where
  loaded : state.loaded = true → state.regions = [state.aesdMajor] ∧ state.cdev = some state.aesdMajor
  unloaded : state.loaded = false → state.regions = [] ∧ state.cdev = none ∧ state.users = []

variable {state next : KernelModule Device} {kind : DeviceKind Device} {device : Device} {call : LoadCall}
  {reply : Reply} {op : ModuleOp} {ops : List ModuleOp} {trace : List (ModuleOp × Reply)}

theorem registered_boot : Registered (KernelModule.boot device) where
  loaded := fun hLoaded => (by cases hLoaded)
  unloaded := fun _ => ⟨rfl, rfl, rfl⟩

/-- Without a device number nothing is set up. -/
theorem init_refused (h : call.region < 0) :
    state.aesdInitModule kind call = (call.region, { state with aesdMajor := 0 }) := by
  simp only [KernelModule.aesdInitModule, h, ↓reduceIte]

/-- Without the device the number that was reserved is given back. -/
theorem init_failed (hRegion : call.region = 0) (hSetup : call.setup < 0) :
    state.aesdInitModule kind call = (call.setup, { state with
      aesdMajor := call.major, device := kind.init state.device }) := by
  simp [KernelModule.aesdInitModule, aesdSetupCdev, hRegion, Int.ne_of_lt hSetup]

theorem init_served (hRegion : call.region = 0) (hSetup : call.setup = 0) :
    state.aesdInitModule kind call = (0, { state with
      aesdMajor := call.major, regions := call.major :: state.regions, device := kind.init state.device
      cdev := some call.major }) := by
  simp [KernelModule.aesdInitModule, aesdSetupCdev, hRegion, hSetup]

/-- What a load can come to. -/
theorem LoadCall.cases (call : LoadCall) :
    call.region < 0 ∨ (call.region = 0 ∧ call.setup < 0) ∨ (call.region = 0 ∧ call.setup = 0) := by
  have hRegion := call.regionRange
  have hSetup := call.setupRange
  omega

/-- A module is loaded once at a time. -/
theorem step_load_again (h : state.loaded = true) :
    KernelModule.step kind (.load call) state = .error .order := by
  simp only [KernelModule.step, h, ↓reduceIte]

theorem step_load_refused (h : state.loaded = false) (hRefused : call.region < 0) :
    KernelModule.step kind (.load call) state =
      .ok (⟨call.region, []⟩, { state with aesdMajor := 0, loaded := false }) := by
  simp only [KernelModule.step, h, init_refused hRefused, Bool.false_eq_true, ↓reduceIte,
    decide_eq_false (Int.ne_of_lt hRefused)]

theorem step_load_failed (h : state.loaded = false) (hRegion : call.region = 0) (hFailed : call.setup < 0) :
    KernelModule.step kind (.load call) state = .ok (⟨call.setup, []⟩, { state with
      aesdMajor := call.major, device := kind.init state.device, loaded := false }) := by
  simp only [KernelModule.step, h, init_failed hRegion hFailed, Bool.false_eq_true, ↓reduceIte,
    decide_eq_false (Int.ne_of_lt hFailed)]

theorem step_load_served (h : state.loaded = false) (hRegion : call.region = 0) (hServed : call.setup = 0) :
    KernelModule.step kind (.load call) state = .ok (⟨0, []⟩, { state with
      aesdMajor := call.major, regions := call.major :: state.regions, device := kind.init state.device
      cdev := some call.major, loaded := true }) := by
  simp only [KernelModule.step, h, init_served hRegion hServed, Bool.false_eq_true, ↓reduceIte, decide_true]

theorem step_unload_refused (h : state.loaded = false ∨ state.users ≠ []) :
    KernelModule.step kind .unload state = .error .order := by
  simp only [KernelModule.step, if_pos h]

theorem step_unload (hLoaded : state.loaded = true) (hUsers : state.users = [])
    (hCleanup : kind.cleanup state.device = .ok device) :
    KernelModule.step kind .unload state = .ok (⟨0, []⟩, { state with
      device, cdev := none, regions := state.regions.erase state.aesdMajor, loaded := false }) := by
  simp only [KernelModule.step, KernelModule.aesdCleanupModule, hLoaded, hUsers, hCleanup, Bool.true_eq_false, ne_eq,
    not_true_eq_false, or_self, ↓reduceIte, bind, Except.bind, pure, Except.pure]

theorem step_file_refused {op : Op} (h : state.cdev = none ∨ op.usersAfter state.users = none) :
    KernelModule.step kind (.file op) state = .error .order := by
  rcases h with hClosed | hUnused
  · simp only [KernelModule.step, hClosed]
  · simp only [KernelModule.step, hUnused]
    cases state.cdev <;> rfl

theorem step_file {op : Op} {number : Nat} {users : List Nat} (hCdev : state.cdev = some number)
    (hUsers : op.usersAfter state.users = some users) :
    KernelModule.step kind (.file op) state = match kind.exec op state.device with
      | .error stop => .error (.device stop)
      | .ok (reply, device) => .ok (reply, { state with device, users }) := by
  simp only [KernelModule.step, hCdev, hUsers]

namespace Registered

/-- A load that fails leaves an unloaded module as registered as it was. -/
theorem idle (h : Registered state) (hLoaded : state.loaded = false) (aesdMajor : Nat) :
    Registered { state with aesdMajor, device, loaded := false } where
  loaded := fun hNow => (by cases hNow)
  unloaded := fun _ => h.unloaded hLoaded

theorem served (h : Registered state) (hLoaded : state.loaded = false) (major : Nat) :
    Registered { state with
      aesdMajor := major, regions := major :: state.regions, device, cdev := some major, loaded := true } where
  loaded := fun _ => ⟨by rw [(h.unloaded hLoaded).1], rfl⟩
  unloaded := fun hNot => (by cases hNot)

theorem ended (h : Registered state) (hLoaded : state.loaded = true) (hUsers : state.users = []) :
    Registered { state with
      device, cdev := none, regions := state.regions.erase state.aesdMajor, loaded := false } where
  loaded := fun hNow => (by cases hNow)
  unloaded := fun _ => ⟨by simp [(h.loaded hLoaded).1], rfl, hUsers⟩

/-- A module whose device can be opened is loaded. -/
theorem loaded_of_cdev {number : Nat} (h : Registered state) (hCdev : state.cdev = some number) :
    state.loaded = true := by
  by_contra hNot
  rw [(h.unloaded ((Bool.not_eq_true _).mp hNot)).2.1] at hCdev
  cases hCdev

theorem used {users : List Nat} (h : Registered state) (hLoaded : state.loaded = true) :
    Registered { state with device, users } where
  loaded := fun _ => h.loaded hLoaded
  unloaded := by
    intro hNot
    rw [hLoaded] at hNot
    cases hNot

theorem step (h : Registered state) (hStep : KernelModule.step kind op state = .ok (reply, next)) :
    Registered next := by
  cases op with
  | load call =>
      cases hLoaded : state.loaded with
      | true =>
          rw [step_load_again hLoaded] at hStep
          cases hStep
      | false =>
          rcases call.cases with hRefused | ⟨hRegion, hFailed⟩ | ⟨hRegion, hServed⟩
          · rw [step_load_refused hLoaded hRefused] at hStep
            cases hStep
            exact h.idle hLoaded 0
          · rw [step_load_failed hLoaded hRegion hFailed] at hStep
            cases hStep
            exact h.idle hLoaded call.major
          · rw [step_load_served hLoaded hRegion hServed] at hStep
            cases hStep
            exact h.served hLoaded call.major
  | unload =>
      by_cases hRefused : state.loaded = false ∨ state.users ≠ []
      · rw [step_unload_refused hRefused] at hStep
        cases hStep
      · obtain ⟨hLoaded, hUsers⟩ := not_or.mp hRefused
        rw [Bool.not_eq_false] at hLoaded
        cases hCleanup : kind.cleanup state.device with
        | error stop =>
            simp only [KernelModule.step, if_neg hRefused, KernelModule.aesdCleanupModule, hCleanup, bind,
              Except.bind] at hStep
            cases hStep
        | ok device =>
            rw [step_unload hLoaded (not_not.mp hUsers) hCleanup] at hStep
            cases hStep
            exact h.ended hLoaded (not_not.mp hUsers)
  | file op =>
      cases hCdev : state.cdev with
      | none =>
          rw [step_file_refused (Or.inl hCdev)] at hStep
          cases hStep
      | some number =>
          cases hUsers : op.usersAfter state.users with
          | none =>
              rw [step_file_refused (Or.inr hUsers)] at hStep
              cases hStep
          | some users =>
              rw [step_file hCdev hUsers] at hStep
              split at hStep
              · cases hStep
              · cases hStep
                exact h.used (h.loaded_of_cdev hCdev)

end Registered

theorem run_registered (hState : Registered state)
    (hRun : run (KernelModule.step kind) ops state = .ok (trace, next)) : Registered next :=
  run_induct (fun _ state => Registered state) (fun _ _ _ _ _ hBefore hStep _ => hBefore.step hStep)
    [] hState along_true hRun

/-- A load that the kernel grants, with the device number 240. -/
def grantedLoad : LoadCall := ⟨0, 240, 0, by decide, by decide⟩

/-- A life with a pending byte and a lock that was never given back, and a
load without a device. -/
def firstLife : List ModuleOp :=
  [.load grantedLoad, .file (.openFile 3), .file (.write 3 (wholeWrite [97])), .file (.write 3 refusedWrite),
    .file (.release 3), .unload, .load ⟨0, 241, -12, by decide, by decide⟩]

def secondLife : List ModuleOp :=
  [.load grantedLoad, .file (.openFile 5), .file (.write 5 (wholeWrite [98, newline])),
    .file (.read 5 ⟨true, 9, false⟩)]

/-- In every run of loads, unloads and operations, whichever of them fail: a
loaded module has reserved one device number and can be opened under it, and
a module that is not loaded has none, no device and no open file. -/
theorem registrations_balanced (kind : DeviceKind Device) (device : Device) (ops : List ModuleOp)
    (trace : List (ModuleOp × Reply)) (state : KernelModule Device)
    (hRun : run (KernelModule.step kind) ops (KernelModule.boot device) = .ok (trace, state)) :
    Registered state :=
  run_registered registered_boot hRun

theorem registrations_balanced_line : ∃ trace state,
    run (KernelModule.step driver) (firstLife ++ secondLife) (KernelModule.boot System.boot) = .ok (trace, state) ∧
      Registered state := by
  obtain ⟨trace, state, hRun⟩ : ∃ trace state,
      run (KernelModule.step driver) (firstLife ++ secondLife) (KernelModule.boot System.boot) =
        .ok (trace, state) := ⟨_, _, rfl⟩
  exact ⟨trace, state, hRun, registrations_balanced driver System.boot _ trace state hRun⟩

section Lives
variable {state left right : KernelModule System} {logState : KernelModule LogDevice} {rest : List ModuleOp}

/-- Whatever is still allocated, the set-up leaves an empty log. -/
theorem represents_init (world : World) : Represents (Aesd.aesdInitModule 0 0 world).2 Log.empty where
  ring := {
    counted := counted_init
    held := Ring.holds_nil
    nonempty := fun command hCommand => absurd hCommand List.not_mem_nil
    separate := by
      intro index other id hIndex
      have hZero : (Aesd.aesdInitModule 0 0 world).2.dev.aesdCb.slot index = .zero := slot_init index
      rw [hZero] at hIndex
      cases hIndex }
  tmpSize := rfl
  tmp := fun _ => tmpHolds_nil rfl
  bufferSize := rfl

theorem refines_init (system : System) : Refines (driver.init system) LogDevice.initial where
  represents := represents_init system.world
  held := rfl
  position := fun _ => rfl
  inRange := fun _ => Nat.two_pow_pos 63

/-- The module of the driver and that of the log are in one state but for
their devices, which matter while they are loaded. -/
structure Lives (rest : List ModuleOp) (state : KernelModule System) (logState : KernelModule LogDevice) :
    Prop where
  same : logState = state.withDevice logState.device
  registered : Registered state
  refines : state.loaded = true → Refines state.device logState.device ∧
    logState.device.log.contents.length + (rest.map ModuleOp.offered).sum < 2 ^ 63
  inDomain : ∀ op ∈ rest, op.InDomain
  offered : (rest.map ModuleOp.offered).sum < 2 ^ 63

theorem Lives.loaded (h : Lives rest state logState) : logState.loaded = state.loaded := by
  rw [h.same]
  rfl

theorem Lives.inDomain_rest (h : Lives (op :: rest) state logState) : ∀ later ∈ rest, later.InDomain :=
  fun later hLater => h.inDomain later (List.mem_cons_of_mem _ hLater)

theorem Lives.offered_rest (h : Lives (op :: rest) state logState) :
    op.offered + (rest.map ModuleOp.offered).sum < 2 ^ 63 := by
  have hOffered := h.offered
  rwa [List.map_cons, List.sum_cons] at hOffered

theorem Lives.load (h : Lives (.load call :: rest) state logState) :
    Agree (Lives rest) (KernelModule.step driver (.load call) state)
      (KernelModule.step logDevice (.load call) logState) := by
  have hBudget : (rest.map ModuleOp.offered).sum < 2 ^ 63 := by
    simpa [ModuleOp.offered] using h.offered_rest
  cases hLoaded : state.loaded with
  | true =>
      rw [step_load_again hLoaded, step_load_again (h.loaded.trans hLoaded)]
      exact .stopped ModuleHalt.order
  | false =>
      have hLogLoaded := h.loaded.trans hLoaded
      rcases call.cases with hRefused | ⟨hRegion, hFailed⟩ | ⟨hRegion, hServed⟩
      · rw [step_load_refused hLoaded hRefused, step_load_refused hLogLoaded hRefused]
        refine .answered ⟨?_, h.registered.idle hLoaded 0, fun hNow => (by cases hNow), h.inDomain_rest, hBudget⟩
        rw [h.same]
        rfl
      · rw [step_load_failed hLoaded hRegion hFailed, step_load_failed hLogLoaded hRegion hFailed]
        refine .answered ⟨?_, h.registered.idle hLoaded call.major, fun hNow => (by cases hNow), h.inDomain_rest,
          hBudget⟩
        rw [h.same]
        rfl
      · rw [step_load_served hLoaded hRegion hServed, step_load_served hLogLoaded hRegion hServed]
        refine .answered ⟨?_, h.registered.served hLoaded call.major, fun _ => ⟨refines_init state.device, ?_⟩,
          h.inDomain_rest, hBudget⟩
        · rw [h.same]
          rfl
        · simpa [logDevice, LogDevice.initial, Log.contents, Log.empty] using hBudget

/-- The clean-up of a device that stands for a log comes to its end. -/
theorem driver_cleanup {system : System} {commands : List (List Byte)} (h : RingHolds system.world commands) :
    ∃ after, driver.cleanup system = .ok after := by
  obtain ⟨world, hCleanup, _⟩ := h.cleanup
  exact ⟨{ system with world }, by simp only [driver, hCleanup, bind, Except.bind, pure, Except.pure]⟩

theorem Lives.unload (h : Lives (.unload :: rest) state logState) :
    Agree (Lives rest) (KernelModule.step driver .unload state)
      (KernelModule.step logDevice .unload logState) := by
  have hBudget : (rest.map ModuleOp.offered).sum < 2 ^ 63 := by
    simpa [ModuleOp.offered] using h.offered_rest
  have hLogUsers : logState.users = state.users := by
    rw [h.same]
    rfl
  by_cases hRefused : state.loaded = false ∨ state.users ≠ []
  · rw [step_unload_refused hRefused, step_unload_refused (by rw [h.loaded, hLogUsers]; exact hRefused)]
    exact .stopped ModuleHalt.order
  · obtain ⟨hLoaded, hUsers⟩ := not_or.mp hRefused
    rw [Bool.not_eq_false] at hLoaded
    rw [not_not] at hUsers
    obtain ⟨after, hCleanup⟩ := driver_cleanup (h.refines hLoaded).1.represents.ring
    rw [step_unload hLoaded hUsers hCleanup, @step_unload _ logState logDevice logState.device
      (h.loaded.trans hLoaded) (hLogUsers.trans hUsers) rfl]
    refine .answered ⟨?_, h.registered.ended hLoaded hUsers, fun hNow => (by cases hNow), h.inDomain_rest, hBudget⟩
    rw [h.same]
    rfl

theorem Lives.file {op : Op} (h : Lives (.file op :: rest) state logState) :
    Agree (Lives rest) (KernelModule.step driver (.file op) state)
      (KernelModule.step logDevice (.file op) logState) := by
  have hLogCdev : logState.cdev = state.cdev := by rw [h.same]; rfl
  have hLogUsers : logState.users = state.users := by rw [h.same]; rfl
  cases hCdev : state.cdev with
  | none =>
      rw [step_file_refused (Or.inl hCdev), step_file_refused (Or.inl (hLogCdev.trans hCdev))]
      exact .stopped ModuleHalt.order
  | some number =>
      cases hUsers : op.usersAfter state.users with
      | none =>
          rw [step_file_refused (Or.inr hUsers), step_file_refused (Or.inr (by rw [hLogUsers]; exact hUsers))]
          exact .stopped ModuleHalt.order
      | some users =>
          have hLoaded := h.registered.loaded_of_cdev hCdev
          have hBudget := h.offered_rest
          obtain ⟨hDevice, hSize⟩ := h.refines hLoaded
          rw [List.map_cons, List.sum_cons] at hSize
          have hExec := @Refines.exec _ _ op hDevice (h.inDomain (.file op) List.mem_cons_self) (by omega)
          rw [step_file hCdev hUsers, step_file (hLogCdev.trans hCdev) (by rw [hLogUsers]; exact hUsers)]
          simp only [driver, logDevice]
          generalize System.exec op state.device = outcome at hExec
          generalize hLog : LogDevice.exec op logState.device = outcome' at hExec
          cases hExec with
          | stopped stop => exact .stopped (ModuleHalt.device stop)
          | answered hNext =>
              have hGrown := LogDevice.exec_contents hLog
              simp only [ModuleOp.offered] at hSize hBudget
              refine .answered ⟨?_, h.registered.used hLoaded, fun _ => ⟨hNext, ?_⟩, h.inDomain_rest, ?_⟩
              · rw [h.same]
                rfl
              · dsimp only
                omega
              · omega

theorem Lives.step (h : Lives (op :: rest) state logState) :
    Agree (Lives rest) (KernelModule.step driver op state) (KernelModule.step logDevice op logState) := by
  cases op with
  | load call => exact h.load
  | unload => exact h.unload
  | file op => exact h.file

theorem lives_boot (hOps : ∀ op ∈ ops, op.InDomain) (hOffered : (ops.map ModuleOp.offered).sum < 2 ^ 63)
    (log : LogDevice) : Lives ops (KernelModule.boot System.boot) (KernelModule.boot log) where
  same := rfl
  registered := registered_boot
  refines := fun hLoaded => (by cases hLoaded)
  inDomain := hOps
  offered := hOffered

/-- However often the module is loaded and unloaded, the driver and a log that
starts anew with each life stop together or give the same answers, under the
conditions of one life. -/
theorem driver_refines_lives (ops : List ModuleOp) (hOps : ∀ op ∈ ops, op.InDomain)
    (hOffered : (ops.map ModuleOp.offered).sum < 2 ^ 63) :
    Agree (Lives []) (run (KernelModule.step driver) ops (KernelModule.boot System.boot))
      (run (KernelModule.step logDevice) ops (KernelModule.boot LogDevice.initial)) :=
  run_agree Lives (fun _ _ _ _ hLives => hLives.step) (lives_boot hOps hOffered _)

theorem driver_refines_lives_line :
    Agree (Lives []) (run (KernelModule.step driver) (firstLife ++ secondLife) (KernelModule.boot System.boot))
      (run (KernelModule.step logDevice) (firstLife ++ secondLife) (KernelModule.boot LogDevice.initial)) :=
  driver_refines_lives _ (by simp [firstLife, secondLife, ModuleOp.InDomain, Op.InDomain]) (by decide)

/-- Two kernels with the module that no later life tells apart: while it is
loaded they are in one state but for their devices, and these have one log. -/
structure SameLife (left right : KernelModule System) : Prop where
  registered : Registered left ∧ Registered right
  loaded : right.loaded = left.loaded
  same : left.loaded = true → right = left.withDevice right.device ∧ SameLog left.device right.device

theorem SameLife.load (h : SameLife left right) :
    Agree SameLife (KernelModule.step driver (.load call) left) (KernelModule.step driver (.load call) right) := by
  obtain ⟨hLeft, hRight⟩ := h.registered
  cases hLoaded : left.loaded with
  | true =>
      rw [step_load_again hLoaded, step_load_again (h.loaded.trans hLoaded)]
      exact .stopped ModuleHalt.order
  | false =>
      have hLoaded' := h.loaded.trans hLoaded
      rcases call.cases with hRefused | ⟨hRegion, hFailed⟩ | ⟨hRegion, hServed⟩
      · rw [step_load_refused hLoaded hRefused, step_load_refused hLoaded' hRefused]
        exact .answered ⟨⟨hLeft.idle hLoaded 0, hRight.idle hLoaded' 0⟩, rfl, fun hNow => (by cases hNow)⟩
      · rw [step_load_failed hLoaded hRegion hFailed, step_load_failed hLoaded' hRegion hFailed]
        exact .answered ⟨⟨hLeft.idle hLoaded _, hRight.idle hLoaded' _⟩, rfl, fun hNow => (by cases hNow)⟩
      · rw [step_load_served hLoaded hRegion hServed, step_load_served hLoaded' hRegion hServed]
        refine .answered ⟨⟨hLeft.served hLoaded _, hRight.served hLoaded' _⟩, rfl, fun _ => ⟨?_, ?_⟩⟩
        · obtain ⟨hRegions, _, hUsers⟩ := hLeft.unloaded hLoaded
          obtain ⟨hRegions', _, hUsers'⟩ := hRight.unloaded hLoaded'
          simp only [KernelModule.withDevice, hRegions, hRegions', hUsers, hUsers']
        · exact ⟨⟨Log.empty, represents_init _, represents_init _⟩, rfl, rfl⟩

theorem SameLife.unload (h : SameLife left right) :
    Agree SameLife (KernelModule.step driver .unload left) (KernelModule.step driver .unload right) := by
  obtain ⟨hLeft, hRight⟩ := h.registered
  cases hLoaded : left.loaded with
  | false =>
      rw [step_unload_refused (Or.inl hLoaded), step_unload_refused (Or.inl (h.loaded.trans hLoaded))]
      exact .stopped ModuleHalt.order
  | true =>
      obtain ⟨hSame, ⟨log, hLog, hLog'⟩, _, _⟩ := h.same hLoaded
      have hUsers' : right.users = left.users := by rw [hSame]; rfl
      by_cases hUsers : left.users = []
      · obtain ⟨after, hCleanup⟩ := driver_cleanup hLog.ring
        obtain ⟨after', hCleanup'⟩ := driver_cleanup hLog'.ring
        rw [step_unload hLoaded hUsers hCleanup,
          step_unload (h.loaded.trans hLoaded) (hUsers'.trans hUsers) hCleanup']
        exact .answered ⟨⟨hLeft.ended hLoaded hUsers, hRight.ended (h.loaded.trans hLoaded) (hUsers'.trans hUsers)⟩,
          rfl, fun hNow => (by cases hNow)⟩
      · rw [step_unload_refused (Or.inr hUsers), step_unload_refused (Or.inr (hUsers' ▸ hUsers))]
        exact .stopped ModuleHalt.order

theorem SameLife.file {op : Op} (h : SameLife left right) :
    Agree SameLife (KernelModule.step driver (.file op) left) (KernelModule.step driver (.file op) right) := by
  obtain ⟨hLeft, hRight⟩ := h.registered
  cases hLoaded : left.loaded with
  | false =>
      have hClosed := (hLeft.unloaded hLoaded).2.1
      have hClosed' := (hRight.unloaded (h.loaded.trans hLoaded)).2.1
      rw [step_file_refused (Or.inl hClosed), step_file_refused (Or.inl hClosed')]
      exact .stopped ModuleHalt.order
  | true =>
      obtain ⟨hSame, hLog⟩ := h.same hLoaded
      have hUsers' : right.users = left.users := by rw [hSame]; rfl
      have hCdev := (hLeft.loaded hLoaded).2
      have hCdev' := (hRight.loaded (h.loaded.trans hLoaded)).2
      cases hUsers : op.usersAfter left.users with
      | none =>
          rw [step_file_refused (Or.inr hUsers), step_file_refused (Or.inr (by rw [hUsers']; exact hUsers))]
          exact .stopped ModuleHalt.order
      | some users =>
          have hExec := hLog.exec (.same op)
          rw [step_file hCdev hUsers, step_file hCdev' (by rw [hUsers']; exact hUsers)]
          simp only [driver]
          generalize System.exec op left.device = outcome at hExec
          generalize System.exec op right.device = outcome' at hExec
          cases hExec with
          | stopped stop => exact .stopped (ModuleHalt.device stop)
          | answered hNext =>
              refine .answered ⟨⟨hLeft.used hLoaded, hRight.used (h.loaded.trans hLoaded)⟩, h.loaded,
                fun _ => ⟨?_, hNext⟩⟩
              rw [hSame]
              rfl

theorem SameLife.step (h : SameLife left right) :
    Agree SameLife (KernelModule.step driver op left) (KernelModule.step driver op right) := by
  cases op with
  | load call => exact h.load
  | unload => exact h.unload
  | file op => exact h.file

/-- After a life that has ended, whatever happened in it, every run gives the
answers that it gives on a kernel that never had the module. -/
theorem lives_independent (ops life : List ModuleOp) (trace : List (ModuleOp × Reply))
    (state : KernelModule System)
    (hRun : run (KernelModule.step driver) ops (KernelModule.boot System.boot) = .ok (trace, state))
    (hUnloaded : state.loaded = false) :
    replies (run (KernelModule.step driver) life state) =
      replies (run (KernelModule.step driver) life (KernelModule.boot System.boot)) := by
  have hStart : SameLife state (KernelModule.boot System.boot) := by
    refine ⟨⟨run_registered registered_boot hRun, registered_boot⟩, hUnloaded.symm, fun hLoaded => ?_⟩
    rw [hUnloaded] at hLoaded
    cases hLoaded
  exact (run_agree (fun _ => SameLife) (fun op _ _ _ hSame => @SameLife.step op _ _ hSame) hStart).replies

theorem lives_independent_line : ∃ trace state,
    run (KernelModule.step driver) firstLife (KernelModule.boot System.boot) = .ok (trace, state) ∧
    replies (run (KernelModule.step driver) secondLife state) =
      replies (run (KernelModule.step driver) secondLife (KernelModule.boot System.boot)) := by
  obtain ⟨trace, state, hRun, hUnloaded⟩ : ∃ trace state,
      run (KernelModule.step driver) firstLife (KernelModule.boot System.boot) = .ok (trace, state) ∧
        state.loaded = false := ⟨_, _, rfl, rfl⟩
  exact ⟨trace, state, hRun, lives_independent firstLife secondLife trace state hRun hUnloaded⟩

end Lives
end Aesd
