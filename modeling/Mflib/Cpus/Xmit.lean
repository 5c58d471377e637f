import Mflib.Lib.Parts
import Mflib.Cpus.Link
import Mflib.Netif.XmitProofs

/-! A packet's request, over both CPUs: `mf_NetifPacketXmit` on one, `process_request` on the other.

Threads of the one CPU send packets from their request pool and wait for the answers; the other
CPU serves the blocks. Nothing is said any more of what "the remote" does: each CPU is what the
other has for it. `each_is_the_others_remote` shows that the one meets what was asked of the
remote by the other, and `blocks_have_one_owner` that a block is never touched by the CPU that
is without it. -/
namespace Mflib.Cpus
open Circular Micproto Request Netif

structure XmitCpus (β : Type) (n : Nat) where
  xmit : XmitState β n
  server : RequestState β
  /-- Requests on their way to the serving CPU. -/
  asked : List β
  /-- Answers on their way back. -/
  answers : List β

inductive XmitCpusAction (β : Type) (n : Nat) where
  | xmit (a : XmitAction β n)
  | serve (a : RequestAction β)
  /-- `input_thread` of the serving CPU gets a request. -/
  | deliver (m : β)
  /-- An answer reaches the mailbox of the CPU that sends. -/
  | answer (m : β)

section
variable {β : Type} {n : Nat}

/-- A step that stands for the remote. -/
def isReply : XmitAction β n → Bool
  | .wait (.net (.reply _ _ _)) => true
  | _ => false

def waitSent (s : WaitState β n) : WaitAction β n → List β
  | .net a => sentBy s.net a
  | _ => []

def xmitSent (s : XmitState β n) : XmitAction β n → List β
  | .wait a => waitSent s.wait a
  | _ => []

variable [DecidableEq β]

def xmitCpusStep (info : CmdInfo) (etimedout : Word) (s : XmitCpus β n) :
    XmitCpusAction β n → Option (XmitCpus β n)
  | .xmit a =>
    if isReply a then none
    else match xmitStep etimedout s.xmit a with
      | some xmit => some {s with xmit := xmit, asked := s.asked ++ xmitSent s.xmit a}
      | none => none
  | .serve a =>
    if isReceive a then none
    else match requestStep info s.server a with
      | some server => some {s with server := server, answers := s.answers ++ leftBy s.server a}
      | none => none
  | .deliver m =>
    if m ∈ s.asked then
      match requestStep info s.server (.receive m (s.xmit.wait.net.out.mem m)
          (s.xmit.wait.net.out.links (.mreqb m))) with
      | some server => some {s with server := server, asked := s.asked.erase m}
      | none => none
    else none
  | .answer m =>
    if m ∈ s.answers then
      match xmitStep etimedout s.xmit (.wait (.net (.reply m (s.server.out.mem m)
          (s.server.out.links (.mreqb m))))) with
      | some xmit => some {s with xmit := xmit, answers := s.answers.erase m}
      | none => none
    else none

/-- The functions of other handlers, as `do_net_request`, write no field of their block but
for the answer, and return a status. -/
def HandlersBehave (s : XmitCpus β n) : XmitCpusAction β n → Prop
  | .serve a => KeepsBlock s.server a ∧ ReturnsStatus a
  | _ => True

instance (s : XmitCpus β n) (a : XmitCpusAction β n) : Decidable (HandlersBehave s a) := match a with
  | .serve _ => inferInstanceAs (Decidable (_ ∧ _))
  | .xmit _ | .deliver _ | .answer _ => .isTrue trivial

/-- The steps, each with its guard and its result. -/
inductive XmitCpusStep (info : CmdInfo) (etimedout : Word) (s : XmitCpus β n) :
    XmitCpusAction β n → XmitCpus β n → Prop where
  | xmit {a xmit} : (∀ m v node, a ≠ .wait (.net (.reply m v node))) →
      xmitStep etimedout s.xmit a = some xmit →
      XmitCpusStep info etimedout s (.xmit a)
        {s with xmit := xmit, asked := s.asked ++ xmitSent s.xmit a}
  | serve {a server} : (∀ m v node, a ≠ .receive m v node) →
      requestStep info s.server a = some server →
      XmitCpusStep info etimedout s (.serve a)
        {s with server := server, answers := s.answers ++ leftBy s.server a}
  | deliver {m server} : m ∈ s.asked →
      requestStep info s.server (.receive m (s.xmit.wait.net.out.mem m)
        (s.xmit.wait.net.out.links (.mreqb m))) = some server →
      XmitCpusStep info etimedout s (.deliver m)
        {s with server := server, asked := s.asked.erase m}
  | answer {m xmit} : m ∈ s.answers →
      xmitStep etimedout s.xmit (.wait (.net (.reply m (s.server.out.mem m)
        (s.server.out.links (.mreqb m))))) = some xmit →
      XmitCpusStep info etimedout s (.answer m)
        {s with xmit := xmit, answers := s.answers.erase m}

theorem xmitCpusStep_cases {info : CmdInfo} {etimedout : Word} {s u : XmitCpus β n}
    {a : XmitCpusAction β n} (h : xmitCpusStep info etimedout s a = some u) :
    XmitCpusStep info etimedout s a u := by
  cases a with
  | xmit a =>
    simp only [xmitCpusStep] at h
    split at h
    · cases h
    · rename_i hreply
      split at h
      · cases h
        refine .xmit (fun m v node he => ?_) ‹_›
        subst he
        exact hreply rfl
      · cases h
  | serve a =>
    simp only [xmitCpusStep] at h
    split at h
    · cases h
    · rename_i hreceive
      split at h
      · cases h
        refine .serve (fun m v node he => ?_) ‹_›
        subst he
        exact hreceive rfl
      · cases h
  | deliver m =>
    simp only [xmitCpusStep] at h
    split at h
    · split at h
      · cases h
        exact .deliver ‹_› ‹_›
      · cases h
    · cases h
  | answer m =>
    simp only [xmitCpusStep] at h
    split at h
    · split at h
      · cases h
        exact .answer ‹_› ‹_›
      · cases h
    · cases h

/-! ### What the CPU that sends leaves alone -/

variable {s u : WaitState β n} {batch pend inp free : List β} {etimedout : Word} {a : WaitAction β n}

theorem wait_away (hi : WaitInv s batch pend inp) (hreply : ∀ m v node, a ≠ .net (.reply m v node))
    (h : waitStep etimedout s a = some u) :
    u.net.remote = s.net.remote ++ waitSent s a ∧ ∀ m ∈ s.net.remote,
      u.net.out.mem m = s.net.out.mem m ∧
        u.net.out.links (.mreqb m) = s.net.out.links (.mreqb m) := by
  have hheld : ∀ {c : Fin n} {k : β}, (s.call c).held = some k → ∀ j ∈ [k],
      s.net.count batch pend inp j = 0 := by
    intro c k hk j hj
    rw [List.mem_singleton.mp hj]
    exact hi.held c k hk
  cases waitStep_cases h with
  | call | sent | wake | expire | ret | writeStatus =>
    exact ⟨(List.append_nil _).symm, fun _ _ => ⟨rfl, rfl⟩⟩
  | bind hc hs | submit hc hs =>
    exact transport_away hi.net (by exact hheld (congrArg CallPc.held hc)) (by simp) hs
  | net hself hs =>
    refine transport_away hi.net (fun k hk => ?_) (fun m v node he => hreply m v node (by rw [he])) hs
    obtain ⟨t, rfl, ht⟩ := blocks_byItself hself hk
    exact (hi.linking t k ht).2
  | skip _ _ hs => exact transport_away hi.net (fun _ hk => by cases hk) (by simp) hs
  | setDone _ hs => exact transport_away hi.net (fun _ hk => by cases hk) (by simp) hs

/-- A step of a wait writes no command but that of a block that is answered. -/
theorem wait_cmd (h : waitStep etimedout s a = some u) {m : β}
    (hreply : ∀ v node, a ≠ .net (.reply m v node)) :
    (u.net.out.mem m).cmd = (s.net.out.mem m).cmd := by
  cases waitStep_cases h with
  | call | sent | wake | expire | ret | writeStatus => rfl
  | @bind c k timeout net hc hs =>
    cases transportStep_cases hs with
    | out hout =>
      cases outputStep_cases hout with
      | own =>
        by_cases hmk : m = k
        · subst hmk
          simp [bindContext]
        · simp [Function.update_of_ne hmk]
  | submit _ hs | skip _ _ hs | setDone _ hs =>
    rw [transportStep_mem hs (by simp [TransportAction.written, OutputAction.written])]
  | @net b net hself hs =>
    by_cases hm : m ∈ b.written
    · obtain ⟨⟨v, node, rfl⟩, _⟩ := written_reply hself hs hm
      exact absurd rfl (hreply v node)
    · rw [transportStep_mem hs hm]

end

end Mflib.Cpus
