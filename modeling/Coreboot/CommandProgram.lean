import Mathlib.Tactic.Common

/-!
# Programs that send commands to a device

A program sends commands and goes on with the replies. It can be run to its end, or stopped
before any of its commands when the power is lost.
-/

namespace Coreboot

structure Device (Command Reply State : Type) where
  reply : State → Command → Reply
  next : State → Command → State

/-- A result, or a command with what follows its reply. -/
inductive Program (Command Reply : Type) (α : Type) where
  | done (result : α)
  | send (command : Command) (resume : Reply → Program Command Reply α)

namespace Program

variable {Command Reply State α β : Type}

def bind : Program Command Reply α → (α → Program Command Reply β) → Program Command Reply β
  | .done result, rest => rest result
  | .send command resume, rest =>
    .send command fun reply => (resume reply).bind rest

instance : Monad (Program Command Reply) where
  pure := .done
  bind := bind

def request (command : Command) : Program Command Reply Reply := .send command .done

/-- The result, and the state of the device after all the commands. -/
def run (device : Device Command Reply State) : Program Command Reply α → State → α × State
  | .done result, state => (result, state)
  | .send command resume, state =>
    (resume (device.reply state command)).run device (device.next state command)

/-- The state of the device when the power is lost after some commands. -/
def interrupted (device : Device Command Reply State) :
    Program Command Reply α → State → Nat → State
  | .done _, state, _ => state
  | .send _ _, state, 0 => state
  | .send command resume, state, count + 1 =>
    (resume (device.reply state command)).interrupted device (device.next state command) count

/-- The command that a loss of power after some commands comes before. -/
def upcoming (device : Device Command Reply State) :
    Program Command Reply α → State → Nat → Option Command
  | .done _, _, _ => none
  | .send command _, _, 0 => some command
  | .send command resume, state, count + 1 =>
    (resume (device.reply state command)).upcoming device (device.next state command) count

/-- Every command is sent in a state that allows it, and the result and the last
state are as expected. -/
def Meets (device : Device Command Reply State)
    (allows : State → Command → Prop) (ends : α → State → Prop) :
    Program Command Reply α → State → Prop
  | .done result, state => ends result state
  | .send command resume, state =>
    allows state command ∧
      (resume (device.reply state command)).Meets device allows ends (device.next state command)

variable {device : Device Command Reply State} {allows : State → Command → Prop}

variable {ends : α → State → Prop} {state : State} {program : Program Command Reply α}
  {command : Command}

@[simp]
theorem meets_pure {result : α} :
    (pure result : Program Command Reply α).Meets device allows ends state ↔ ends result state :=
  Iff.rfl

@[simp]
theorem meets_request {ends : Reply → State → Prop} :
    (request command).Meets device allows ends state ↔
      allows state command ∧ ends (device.reply state command) (device.next state command) :=
  Iff.rfl

@[simp]
theorem meets_bind {ends : β → State → Prop} {first : Program Command Reply α}
    {rest : α → Program Command Reply β} :
    (first >>= rest).Meets device allows ends state ↔
      first.Meets device allows
        (fun result middle => (rest result).Meets device allows ends middle)
        state := by
  change (first.bind rest).Meets device allows ends state ↔ _
  induction first generalizing state with
  | done result => rfl
  | send command resume ih =>
    rw [bind, Meets, Meets]
    exact and_congr_right fun _ => ih _

section

variable (meets : program.Meets device allows ends state)
include meets

theorem Meets.mono {others : α → State → Prop}
    (weaker : ∀ result state, ends result state → others result state) :
    program.Meets device allows others state := by
  induction program generalizing state with
  | done result => exact weaker result state meets
  | send command resume ih => exact ⟨meets.1, ih _ meets.2⟩

theorem Meets.run : ends (program.run device state).1 (program.run device state).2 := by
  induction program generalizing state with
  | done result => exact meets
  | send command resume ih => exact ih _ meets.2

theorem Meets.interrupted {count : Nat}
    (stops : program.upcoming device state count = some command) :
    allows (program.interrupted device state count) command := by
  induction program generalizing state count with
  | done result => cases stops
  | send first resume ih =>
    cases count with
    | zero =>
      cases stops
      exact meets.1
    | succ count => exact ih _ meets.2 stops

end

theorem interrupted_of_upcoming_none {count : Nat}
    (ended : program.upcoming device state count = none) :
    program.interrupted device state count = (program.run device state).2 := by
  induction program generalizing state count with
  | done result => rfl
  | send first resume ih =>
    cases count with
    | zero => cases ended
    | succ count => exact ih _ ended

end Program

end Coreboot
