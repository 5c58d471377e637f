import Mflib.Lib.Parts
import Mflib.Cpus.Link
import Mflib.Request.Order
import Mflib.Serial.Requests
import Mflib.Serial.StreamProofs

/-! A serial line, over both CPUs: `mf_mbserial_send` on one, `handle_mbserial_request` on the other.

Threads of the one CPU send on its ports from the reserve pool; the thread `mailbox serial` of the
other one handles the requests and gives their data to the callbacks of the port. Requests arrive
in the order in which the mailbox accepted them, as it is a FIFO; answers come back in any. The
data of a block is in memory that both see and that callbacks only read. -/
namespace Mflib.Cpus
open Circular Micproto Request Serial

/-- What `handle_mbserial_request` gives the callbacks of a port as data that is available. -/
def datavail (allports : Allports) (reqb : Mreqb) (extraData : List Byte)
    (p : Fin maxMbserialNum) : List (List Byte) :=
  match serveMbserialRequest (β := Unit) ⟨allports, [], []⟩ reqb with
  | some (s, _) => s.uses.filterMap fun use => match use with
    | .callChain q event _ len =>
      if q = p ∧ event = mbserialEventDatavail then some (extraData.take len.toNat) else none
    | .register _ _ => none
  | none => []

structure SerialCpus (β T : Type) where
  stream : Serial.Stream β T
  server : RequestState β
  /-- Requests on their way to the serving CPU, the first in front. -/
  asked : List β
  /-- Answers on their way back. -/
  answers : List β
  /-- What the callbacks of a port were given, in order. -/
  arrived : Fin maxMbserialNum → List (List Byte)

inductive SerialCpusAction (β T : Type) where
  | send (a : SendAction β T)
  | serve (a : RequestAction β)
  /-- `input_thread` of the serving CPU gets the first request. -/
  | deliver
  /-- An answer reaches the mailbox of the CPU that sends. -/
  | answer (m : β)

section
variable {β T : Type}

/-- A step that stands for the remote. -/
def isRemote : SendAction β T → Bool
  | .net (.reply _ _ _) => true
  | .remoteBytes _ _ => true
  | _ => false

/-- What the mailbox accepts. -/
def sendSent (s : SendState β T) : SendAction β T → List β
  | .net a => sentBy s.net a
  | _ => []

/-- What callbacks are given in a step of the serving CPU. -/
def given (s : RequestState β) (bytes : β → List Byte) (p : Fin maxMbserialNum) :
    RequestAction β → List (List Byte)
  | .handle .serial _ => match s.fifo .serial with
    | .handle m => datavail s.allports (s.out.mem m) (bytes m) p
    | _ => []
  | _ => []

variable [DecidableEq β] [DecidableEq T]

def serialCpusStep (info : CmdInfo) (s : SerialCpus β T) :
    SerialCpusAction β T → Option (SerialCpus β T)
  | .send a =>
    if isRemote a then none
    else match streamStep s.stream a with
      | some stream => some {s with stream := stream, asked := s.asked ++ sendSent s.stream.send a}
      | none => none
  | .serve a =>
    if isReceive a then none
    else match requestStep info s.server a with
      | some server => some {s with
          server := server
          answers := s.answers ++ leftBy s.server a
          arrived := fun p => s.arrived p ++ given s.server s.stream.send.bytes p a}
      | none => none
  | .deliver => match s.asked with
    | m :: rest => match requestStep info s.server (.receive m (s.stream.send.net.out.mem m)
        (s.stream.send.net.out.links (.mreqb m))) with
      | some server => some {s with server := server, asked := rest}
      | none => none
    | [] => none
  | .answer m =>
    if m ∈ s.answers then
      match streamStep s.stream (.net (.reply m (s.server.out.mem m)
          (s.server.out.links (.mreqb m)))) with
      | some stream => some {s with stream := stream, answers := s.answers.erase m}
      | none => none
    else none

/-- No thread of the serving CPU closes a port. -/
def StaysOpen (p : Fin maxMbserialNum) (_ : SerialCpus β T) : SerialCpusAction β T → Prop
  | .serve (.port q none) => q ≠ p
  | _ => True

instance (p : Fin maxMbserialNum) (s : SerialCpus β T) (a : SerialCpusAction β T) :
    Decidable (StaysOpen p s a) := match a with
  | .serve (.port q none) => inferInstanceAs (Decidable (q ≠ p))
  | .serve (.port _ (some _)) | .serve (.receive _ _ _) | .serve .process | .serve (.other _ _)
  | .serve .put | .serve .setbits | .serve .ret | .serve .giveback | .serve .submitted
  | .serve (.get _) | .serve (.wait _) | .serve (.handle _ _) | .serve (.fifoGiveback _)
  | .serve (.fifoSubmitted _) | .serve (.out _) | .send _ | .deliver | .answer _ => .isTrue trivial

/-- The steps, each with its guard and its result. -/
inductive SerialCpusStep (info : CmdInfo) (s : SerialCpus β T) :
    SerialCpusAction β T → SerialCpus β T → Prop where
  | send {a v} : isRemote a = false → sendStep s.stream.send a = some v →
      SerialCpusStep info s (.send a)
        {s with stream := s.stream.follow a v, asked := s.asked ++ sendSent s.stream.send a}
  | serve {a server} : (∀ m v node, a ≠ .receive m v node) →
      requestStep info s.server a = some server →
      SerialCpusStep info s (.serve a) {s with
        server := server
        answers := s.answers ++ leftBy s.server a
        arrived := fun p => s.arrived p ++ given s.server s.stream.send.bytes p a}
  | deliver {m rest server} : s.asked = m :: rest →
      requestStep info s.server (.receive m (s.stream.send.net.out.mem m)
        (s.stream.send.net.out.links (.mreqb m))) = some server →
      SerialCpusStep info s .deliver {s with server := server, asked := rest}
  | answer {m v} : m ∈ s.answers →
      sendStep s.stream.send (.net (.reply m (s.server.out.mem m)
        (s.server.out.links (.mreqb m)))) = some v →
      SerialCpusStep info s (.answer m) {s with
        stream := s.stream.follow (.net (.reply m (s.server.out.mem m)
          (s.server.out.links (.mreqb m)))) v
        answers := s.answers.erase m}

theorem serialCpusStep_cases {info : CmdInfo} {s u : SerialCpus β T} {a : SerialCpusAction β T}
    (h : serialCpusStep info s a = some u) : SerialCpusStep info s a u := by
  cases a with
  | send a =>
    simp only [serialCpusStep] at h
    split at h
    · cases h
    · rename_i hremote
      split at h
      · rename_i stream hs
        obtain ⟨v, hv, rfl⟩ := Option.map_eq_some_iff.mp hs
        cases h
        exact .send (Bool.not_eq_true _ ▸ hremote) hv
      · cases h
  | serve a =>
    simp only [serialCpusStep] at h
    split at h
    · cases h
    · rename_i hreceive
      split at h
      · cases h
        refine .serve (fun m v node he => ?_) ‹_›
        subst he
        exact hreceive rfl
      · cases h
  | deliver =>
    simp only [serialCpusStep] at h
    split at h
    · split at h
      · cases h
        exact .deliver ‹_› ‹_›
      · cases h
    · cases h
  | answer m =>
    simp only [serialCpusStep] at h
    split at h
    · split at h
      · rename_i stream hs
        obtain ⟨v, hv, rfl⟩ := Option.map_eq_some_iff.mp hs
        cases h
        exact .answer ‹_› hv
      · cases h
    · cases h

end

end Mflib.Cpus
