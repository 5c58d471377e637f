import Mflib.Lib.Lts
import Mflib.Mailbox.Message

/-! The mailbox of the LTE platform: `mf_MboxMsgRecvFromCpu2` and `mf_mbox_msg_get`.

The platform calls in with each message from CPU2, and the message goes into an eCos
mailbox of fixed capacity; threads take messages from there. `cyg_mbox_tryput`
stores nothing when the mailbox is full and says so, and nobody looks at what it
says. `adapter_conserves_iff` says that this is all that loses messages. -/
namespace Mflib.Mailbox

structure Adapter (T : Type) where
  /-- `os_mbox_handle` is not `NULL`. -/
  osMboxHandle : Bool
  /-- `os_mbox_obj` -/
  osMbox : List MboxMsg
  /-- The messages passed to `mf_MboxMsgRecvFromCpu2`, in order. -/
  passed : List MboxMsg
  /-- What `mf_mbox_msg_get` returned to whom, in order. -/
  returned : List (T × MboxMsg)

inductive AdapterAction (T : Type) where
  /-- CPU2 calls `mf_MboxMsgRecvFromCpu2`. -/
  | recvFromCpu2 (msg : MboxMsg)
  /-- Thread `t` calls `mf_mbox_msg_get`; it blocks while the mailbox is empty. -/
  | msgGet (t : T)
deriving DecidableEq

/-- `cyg_mbox_tryput`: the mailbox, and whether the message is in it. -/
def cygMboxTryput (capacity : Nat) (mbox : List MboxMsg) (msg : MboxMsg) : List MboxMsg × Bool :=
  if mbox.length < capacity then (mbox ++ [msg], true) else (mbox, false)

section
variable {T : Type}

def mfMboxMsgRecvFromCpu2 (capacity : Nat) (s : Adapter T) (msg : MboxMsg) : Adapter T :=
  if s.osMboxHandle then {s with osMbox := (cygMboxTryput capacity s.osMbox msg).1} else s

/-- `mf_mbox_get` creates the mailbox. -/
def mfMboxGet (s : Adapter T) : Adapter T := {s with osMboxHandle := true, osMbox := []}

/-- One call. -/
def adapterStep (capacity : Nat) (s : Adapter T) : AdapterAction T → Option (Adapter T)
  | .recvFromCpu2 msg =>
    some {mfMboxMsgRecvFromCpu2 capacity s msg with passed := s.passed ++ [msg]}
  | .msgGet t => match s.osMbox with
    | msg :: rest =>
      some {s with osMbox := rest, returned := s.returned ++ [(t, inMsgFixup msg)]}
    | [] => none

/-- Calls by CPU2 and by threads `T`, after `mf_mbox_get`. -/
def adapter (capacity : Nat) : Lts (Adapter T) (AdapterAction T) where
  start := mfMboxGet ⟨false, [], [], []⟩
  step := adapterStep capacity

/-- The mailbox is not full when CPU2 calls. -/
def HasRoom (capacity : Nat) (s : Adapter T) : AdapterAction T → Prop
  | .recvFromCpu2 _ => s.osMbox.length < capacity
  | .msgGet _ => True

instance (capacity : Nat) (s : Adapter T) (a : AdapterAction T) :
    Decidable (HasRoom capacity s a) := by
  unfold HasRoom
  split <;> infer_instance

/-- What was returned and what is still in the mailbox are the messages passed in. -/
def Conserves (s : Adapter T) : Prop :=
  s.returned.map Prod.snd ++ s.osMbox.map inMsgFixup = s.passed.map inMsgFixup

instance (s : Adapter T) : Decidable (Conserves s) := inferInstanceAs (Decidable (_ = _))

/-! ### What a step can do -/

/-- The steps, once the mailbox is there. -/
inductive AdapterStep (capacity : Nat) (s : Adapter T) : AdapterAction T → Adapter T → Prop where
  | stored {msg} : s.osMbox.length < capacity → AdapterStep capacity s (.recvFromCpu2 msg)
      {s with osMbox := s.osMbox ++ [msg], passed := s.passed ++ [msg]}
  | lost {msg} : ¬ s.osMbox.length < capacity → AdapterStep capacity s (.recvFromCpu2 msg)
      {s with passed := s.passed ++ [msg]}
  | msgGet {t msg rest} : s.osMbox = msg :: rest → AdapterStep capacity s (.msgGet t)
      {s with osMbox := rest, returned := s.returned ++ [(t, inMsgFixup msg)]}

variable {capacity : Nat} {s u : Adapter T}

theorem adapterStep_cases {a : AdapterAction T} (hmbox : s.osMboxHandle = true)
    (h : adapterStep capacity s a = some u) : AdapterStep capacity s a u := by
  cases a with
  | recvFromCpu2 msg =>
    simp only [adapterStep, mfMboxMsgRecvFromCpu2, hmbox, if_true, cygMboxTryput] at h
    by_cases hroom : s.osMbox.length < capacity
    · simp only [hroom, if_true] at h
      cases h
      have hstep : AdapterStep capacity s (.recvFromCpu2 msg) _ := .stored hroom
      simpa only [hmbox] using hstep
    · simp only [hroom, if_false] at h
      cases h
      have hstep : AdapterStep capacity s (.recvFromCpu2 msg) _ := .lost hroom
      simpa only [hmbox] using hstep
  | msgGet t =>
    simp only [adapterStep] at h
    split at h
    · cases h
      exact .msgGet ‹_›
    · cases h

/-! ### Nothing is lost but at a full mailbox -/

/-- Some message passed in is neither returned nor in the mailbox. -/
def Short (s : Adapter T) : Prop := s.returned.length + s.osMbox.length < s.passed.length

theorem Conserves.lengths (h : Conserves s) :
    s.returned.length + s.osMbox.length = s.passed.length := by
  simpa using congrArg List.length h

theorem Short.not_conserves (h : Short s) : ¬ Conserves s :=
  fun hc => absurd hc.lengths (Nat.ne_of_lt h)

theorem adapterStep_mbox {a : AdapterAction T} (hmbox : s.osMboxHandle = true)
    (h : adapterStep capacity s a = some u) : u.osMboxHandle = true := by
  cases adapterStep_cases hmbox h with
  | stored | lost | msgGet => exact hmbox

/-- A call with room in the mailbox loses nothing. -/
theorem adapterStep_conserves {a : AdapterAction T} (hmbox : s.osMboxHandle = true)
    (hc : Conserves s) (hroom : HasRoom capacity s a) (h : adapterStep capacity s a = some u) :
    Conserves u := by
  cases adapterStep_cases hmbox h with
  | @stored msg _ =>
    show s.returned.map Prod.snd ++ (s.osMbox ++ [msg]).map inMsgFixup =
      (s.passed ++ [msg]).map inMsgFixup
    rw [List.map_append, List.map_append, ← List.append_assoc, hc]
  | lost hfull => exact absurd hroom hfull
  | @msgGet t msg rest hb =>
    have hc : s.returned.map Prod.snd ++ s.osMbox.map inMsgFixup = _ := hc
    show (s.returned ++ [(t, inMsgFixup msg)]).map Prod.snd ++ rest.map inMsgFixup = _
    rw [← hc, hb, List.map_append, List.append_assoc]
    rfl

/-- A call at a full mailbox loses its message. -/
theorem adapterStep_loses {a : AdapterAction T} (hmbox : s.osMboxHandle = true)
    (hc : Conserves s) (hfull : ¬ HasRoom capacity s a) (h : adapterStep capacity s a = some u) :
    Short u := by
  have hlen := hc.lengths
  cases adapterStep_cases hmbox h with
  | stored hroom => exact absurd hroom hfull
  | lost _ =>
    simp only [Short, List.length_append, List.length_singleton]
    omega
  | msgGet _ => exact absurd trivial hfull

/-- What is lost stays lost. -/
theorem adapterStep_short {a : AdapterAction T} (hmbox : s.osMboxHandle = true) (hs : Short s)
    (h : adapterStep capacity s a = some u) : Short u := by
  have hs : s.returned.length + s.osMbox.length < s.passed.length := hs
  cases adapterStep_cases hmbox h with
  | stored | lost =>
    simp only [Short, List.length_append, List.length_singleton]
    omega
  | msgGet hb =>
    simp only [hb, List.length_cons] at hs
    simp only [Short, List.length_append, List.length_singleton]
    omega

theorem exec_short {run : List (AdapterAction T)} (hmbox : s.osMboxHandle = true) (hs : Short s)
    (h : (adapter capacity).exec s run = some u) : Short u := by
  induction run generalizing s with
  | nil =>
    cases h
    exact hs
  | cons a rest ih =>
    obtain ⟨t, hstep, hrest⟩ := Lts.exec_cons h
    exact ih (adapterStep_mbox hmbox hstep) (adapterStep_short hmbox hs hstep) hrest

theorem exec_conserves_iff {run : List (AdapterAction T)} (hmbox : s.osMboxHandle = true)
    (hc : Conserves s) (h : (adapter capacity).exec s run = some u) :
    Conserves u ↔ ((adapter capacity).restrict (HasRoom capacity)).exec s run = some u := by
  induction run generalizing s with
  | nil =>
    cases h
    exact ⟨fun _ => rfl, fun _ => hc⟩
  | cons a rest ih =>
    obtain ⟨t, hstep, hrest⟩ := Lts.exec_cons h
    by_cases hroom : HasRoom capacity s a
    · have ht := ih (adapterStep_mbox hmbox hstep) (adapterStep_conserves hmbox hc hroom hstep) hrest
      simpa only [Lts.exec, Lts.restrict, hroom, if_true, hstep] using ht
    · have hshort := exec_short (adapterStep_mbox hmbox hstep)
        (adapterStep_loses hmbox hc hroom hstep) hrest
      refine ⟨fun hu => absurd hu hshort.not_conserves, fun hr => ?_⟩
      simp only [Lts.exec, Lts.restrict, hroom, if_false] at hr
      cases hr

/-- **The adapter loses messages at a full mailbox and nowhere else**: at the end of a
run, what was returned and what is still in the mailbox are the messages CPU2 passed
in, in order, just when the mailbox had room at each of its calls. -/
theorem adapter_conserves_iff {run : List (AdapterAction T)}
    (h : (adapter capacity).exec (adapter capacity).start run = some s) :
    Conserves s ↔ ((adapter capacity).restrict (HasRoom capacity)).exec
      (adapter capacity).start run = some s :=
  exec_conserves_iff rfl rfl h

/-- The consumer keeps up with a mailbox of two. -/
def keepsUp : List (AdapterAction (Fin 2)) :=
  [.recvFromCpu2 1, .recvFromCpu2 2, .msgGet 0, .recvFromCpu2 3, .msgGet 1]

theorem adapter_conserves_keepsUp :
    ∃ s : Adapter (Fin 2), s.returned = [(0, 0x40000001), (1, 0x40000002)] ∧ Conserves s := by
  let s : Adapter (Fin 2) :=
    { osMboxHandle := true
      osMbox := [3]
      passed := [1, 2, 3]
      returned := [(0, 0x40000001), (1, 0x40000002)] }
  have hrun : (adapter 2).exec (adapter 2).start keepsUp = some s := rfl
  exact ⟨s, rfl, (adapter_conserves_iff hrun).mpr rfl⟩

/-- The second message finds a mailbox of one full. -/
theorem adapter_loses :
    ¬ ∀ (capacity : Nat) (s : Adapter (Fin 1)), 0 < capacity →
      (adapter capacity).Reachable s → Conserves s := by
  intro h
  obtain ⟨s, hs, hno⟩ := Lts.exists_reachable (L := adapter (T := Fin 1) 1)
    (P := fun s => ¬ Conserves s) [.recvFromCpu2 1, .recvFromCpu2 2] (by decide)
  exact hno (h 1 s (by decide) hs)

end

end Mflib.Mailbox
