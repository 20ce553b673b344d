/-
The memory manager over memory whose pool lies in arrays, and lists of requests
to it.
-/
import FourLevelPaging.Checked.AddressSpace
import FourLevelPaging.Manager.Call

namespace FourLevelPaging

/-- An address space with everything needed to change it, the pool in arrays. -/
structure Machine (limit : Nat) where
  space : AddressSpace
  store : Store limit
  mmu : Mmu
  active : Bool

namespace Machine

open Checked

variable {limit : Nat}

/-- The manager that a machine stands for. -/
def view (m : Machine limit) : Manager :=
  { space := m.space, memory := m.store.view, mmu := m.mmu, active := m.active }

/-- A machine of an empty address space. -/
def create (s : Store limit) :
    Checked (Reported (Store limit) (Except ManagerError (Machine limit))) := do
  let made ← s.createSpace
  match made.value with
  | .ok space =>
      return ⟨.ok { space, store := made.state, mmu := .fresh,
                    active := false },
        made.state, made.events⟩
  | .error reason => return ⟨.error (.map reason), made.state, made.events⟩

/-- Drops what the processor remembers of the page of `va`, if the space is
active. -/
def invalidate (m : Machine limit) (va : VirtAddr) : Machine limit :=
  if m.active then { m with mmu.invalidated := m.mmu.invalidated.push va }
  else m

/-- Takes over the memory that a mapping at `va` left, and invalidates what the
mapping replaced. -/
def afterMap (m : Machine limit) (va : VirtAddr)
    (done : Reported (Store limit) (Except MapError Mapped)) :
    Reported (Machine limit) (Except ManagerError Mapped) :=
  let m' := { m with store := done.state }
  match done.value with
  | .ok mapped =>
      ⟨.ok mapped, if mapped.replaced.isSome then m'.invalidate va else m',
        done.events⟩
  | .error reason => ⟨.error (.map reason), m', done.events⟩

def map (m : Machine limit) (va : VirtAddr) (pa : PhysAddr) (flags : Flags) :
    Checked (Reported (Machine limit) (Except ManagerError Mapped)) := do
  let done ← m.store.map m.space.root va pa flags
  return m.afterMap va done

def mapSized (m : Machine limit) (va : VirtAddr) (pa : PhysAddr)
    (size : PageSize) (flags : Flags) :
    Checked (Reported (Machine limit) (Except ManagerError Mapped)) := do
  let done ← m.store.mapSized m.space.root va pa size flags
  return m.afterMap va done

/-- Maps a number of pages from page `i` on, up to the first that cannot be
mapped. -/
def mapPages (va : VirtAddr) (pa : PhysAddr) (size : PageSize) (flags : Flags) :
    Nat → Nat → Machine limit → Array Event →
      Checked (Reported (Machine limit) (Except ManagerError Unit))
  | 0, _, m, events => return ⟨.ok (), m, events⟩
  | count + 1, i, m, events => do
      let offset ← product i size.bytes
      let step ← m.mapSized (va.wrappingAdd (BitVec.ofNat 64 offset))
        (pa.wrappingAdd (BitVec.ofNat 64 offset)) size flags
      match step.value with
      | .ok _ =>
          mapPages va pa size flags count (i + 1) step.state (events ++
            step.events)
      | .error reason =>
          return ⟨.error reason, step.state, events ++ step.events⟩

/-- Maps `bytes` from `va` on to the memory from `pa` on, in pages of `size`. -/
def mapRange (m : Machine limit) (va : VirtAddr) (pa : PhysAddr) (bytes : Word)
    (size : PageSize) (flags : Flags) :
    Checked (Reported (Machine limit) (Except ManagerError Nat)) :=
  if !size.isAligned bytes then
    return .quiet (.error (.rangeLength bytes size)) m
  else if (va.checkedAdd bytes).isNone || (pa.checkedAdd bytes).isNone then
    return .quiet (.error (.rangeOverflow va bytes)) m
  else do
    let pages := bytes.toNat / size.bytes
    let done ← mapPages va pa size flags pages 0 m #[]
    match done.value with
    | .ok () =>
        return ⟨.ok pages, done.state,
          done.events.push (.rangeMapped pages size va pa)⟩
    | .error reason => return { done with value := .error reason }

/-- Takes away the page that covers `va`. -/
def unmap (m : Machine limit) (va : VirtAddr) :
    Checked (Reported (Machine limit) (Option Unmapped)) := do
  let done ← m.store.unmap m.space.root va
  let m' := { m with store := done.state }
  return ⟨done.value, if done.value.isSome then m'.invalidate va else m',
    done.events⟩

def lookup (m : Machine limit) (va : VirtAddr) : Checked (Option Target) :=
  m.store.lookup m.space.root va

def tableFrames (m : Machine limit) : Checked Nat :=
  m.store.countNodes m.space.root Level.all m.space.root

/-- Makes the processor translate through the space. -/
def activate (m : Machine limit) : Checked (Reported (Machine limit) Unit) := do
  let m' :=
    { m with mmu.loaded := m.mmu.loaded.push m.space.root, active := true }
  let nodes ← m'.tableFrames
  return ⟨(), m', #[.activated m.space.root nodes]⟩

/-- Maps the range of a stage. -/
def mapStage (m : Machine limit) (stage : Stage) :
    Checked (Reported (Machine limit) (Except BootstrapError Unit)) := do
  let done ← m.mapRange stage.va stage.pa stage.bytes stage.size stage.flags
  match done.value with
  | .ok pages =>
      return ⟨.ok (), done.state, done.events.push (stage.report pages)⟩
  | .error source =>
      return { done with value := .error (.stage stage.part source) }

/-- Maps the identity window of a policy. -/
def mapIdentity (m : Machine limit) (policy : Policy) :
    Checked (Reported (Machine limit) (Except BootstrapError Unit)) :=
  m.mapStage policy.identityStage

/-- Maps the kernel image of a policy. -/
def mapImage (m : Machine limit) (policy : Policy) :
    Checked (Reported (Machine limit) (Except BootstrapError Unit)) :=
  m.mapStage policy.imageStage

/-- Maps everything a policy asks for. -/
def build (m : Machine limit) (policy : Policy) :
    Checked (Reported (Machine limit) (Except BootstrapError Unit)) :=
  match policy.validate with
  | .error e => return .quiet (.error e) m
  | .ok () => do
      let identity ← m.mapIdentity policy
      match identity.value with
      | .error e => return { identity with value := .error e }
      | .ok () => do
          let image ← identity.state.mapImage policy
          return { image with events := identity.events ++ image.events }

/-- Maps everything a policy asks for and then activates the space. -/
def init (m : Machine limit) (policy : Policy) :
    Checked (Reported (Machine limit) (Except BootstrapError Unit)) := do
  let built ← m.build policy
  match built.value with
  | .error e => return { built with value := .error e }
  | .ok () => do
      let live ← built.state.activate
      return ⟨.ok (), live.state, built.events ++ live.events⟩

/-- Carries out one request.  A list of the entries is made by whoever looks at
memory from outside. -/
def call (m : Machine limit) :
    Manager.Call → Checked (Reported (Machine limit) Manager.Reply)
  | .map va pa flags => do
      let done ← m.map va pa flags
      match done.value with
      | .ok mapped => return { done with value := .mapped mapped }
      | .error reason => return { done with value := .refused reason }
  | .mapSized va pa size flags => do
      let done ← m.mapSized va pa size flags
      match done.value with
      | .ok mapped => return { done with value := .mapped mapped }
      | .error reason => return { done with value := .refused reason }
  | .mapRange va pa bytes size flags => do
      let done ← m.mapRange va pa bytes size flags
      match done.value with
      | .ok count => return { done with value := .pages count }
      | .error reason => return { done with value := .refused reason }
  | .unmap va => do
      let done ← m.unmap va
      return { done with value := .unmapped done.value }
  | .lookup va => do
      let target ← m.lookup va
      return .quiet (.target target) m
  | .translate va => do
      let target ← m.lookup va
      return .quiet (.address (target.map Target.phys)) m
  | .root => return .quiet (.root m.space.root) m
  | .list => return .quiet (.listed (m.space.list m.store.ram)) m
  | .build policy => do
      let done ← m.build policy
      match done.value with
      | .ok () => return { done with value := .built }
      | .error reason => return { done with value := .bootstrapRefused reason }
  | .init policy => do
      let done ← m.init policy
      match done.value with
      | .ok () => return { done with value := .built }
      | .error reason => return { done with value := .bootstrapRefused reason }
  | .activate => do
      let done ← m.activate
      return { done with value := .activated }
  | .panic message => return .quiet (.panicked message) m

/-- Carries out requests one after the other. -/
def run (m : Machine limit) :
    List Manager.Call → Checked (List (Reported (Machine limit) Manager.Reply))
  | [] => return []
  | c :: rest => do
      let done ← m.call c
      let others ← done.state.run rest
      return done :: others

end Machine

end FourLevelPaging
