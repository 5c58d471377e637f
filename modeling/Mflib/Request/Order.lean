import Mflib.Request.Answers

/-! The order in which the thread behind a FIFO handles its requests.

`line` is what is on its way to the thread: the block it is about to handle, the FIFO, and
the block that `input_thread` is to put there. Requests join at the end when they are received
and leave in front when they are handled, and no step does anything else to it (`line_step`). -/
namespace Mflib.Request
open Circular Micproto

section
variable {β : Type}

/-- The FIFO into which the function for a command puts its blocks. -/
def CmdInfo.fifo (info : CmdInfo) (cmd : Word) : Option Fifo := (info.handler cmd).bind CmdFunc.fifo

/-- The block `input_thread` has for a FIFO. -/
def toFifo (info : CmdInfo) (s : RequestState β) (f : Fifo) : List β := match s.input with
  | .request m => if info.fifo (s.out.mem m).cmd = some f then [m] else []
  | .call m func => if func.fifo = some f then [m] else []
  | _ => []

def FifoPc.handles : FifoPc β → List β
  | .handle m => [m]
  | _ => []

/-- The requests on their way to the thread behind a FIFO, the first in front. -/
def line (info : CmdInfo) (s : RequestState β) (q : Fifo → List β) (f : Fifo) : List β :=
  (s.fifo f).handles ++ q f ++ toFifo info s f

/-- The request for a FIFO that is received in a step. -/
def arriving (info : CmdInfo) (f : Fifo) : RequestAction β → List β
  | .receive m v _ => if info.fifo v.cmd = some f then [m] else []
  | _ => []

/-- The request that the thread behind a FIFO handles in a step. -/
def handling (s : RequestState β) (f : Fifo) : RequestAction β → List β
  | .handle g _ => if g = f then (s.fifo f).handles else []
  | _ => []

variable [DecidableEq β] {info : CmdInfo} {s u : RequestState β} {place place' : β → Place}
  {q q' : Fifo → List β} {batch pend batch' pend' : List β} {a : RequestAction β} {m : β} {f : Fifo}

/-! ### One step -/

theorem queue_unique (hu : RequestInv info u place' q' batch' pend') {l : List β}
    (hring : IsRing u.out.links f.head (nodes l)) : q' f = l :=
  List.map_injective_iff.mpr (fun _ _ h => Node.mreqb.inj h) ((hu.ring f).unique hring)

omit [DecidableEq β] in
theorem FifoPc.mem_handles {pc : FifoPc β} : m ∈ pc.handles ↔ pc = .handle m := by
  cases pc with
  | handle k => simp [FifoPc.handles, eq_comm]
  | lock | wait | giveback | submit => simp [FifoPc.handles]

omit [DecidableEq β] in
theorem mem_toFifo (h : m ∈ toFifo info s f) :
    s.input = .request m ∨ ∃ func, s.input = .call m func := by
  unfold toFifo at h
  split at h
  · split at h
    · rename_i hpc _
      exact .inl (List.mem_singleton.mp h ▸ hpc)
    · cases h
  · split at h
    · rename_i hpc _
      exact .inr ⟨_, List.mem_singleton.mp h ▸ hpc⟩
    · cases h
  · cases h

/-- Where a request on its way to a thread is, and that it is as it was received. -/
theorem line_stands (hi : RequestInv info s place q batch pend) (hm : m ∈ line info s q f) :
    (place m = .fifo f ∨ place m = .queue f ∨ place m = .input) ∧
      (requestLife info m).exec .away s.log = some (.received (s.out.mem m).cmd) := by
  obtain ⟨l, hl, hstands⟩ := hi.life m
  simp only [line, List.mem_append] at hm
  rcases hm with (hm | hm) | hm
  · have hpc := FifoPc.mem_handles.mp hm
    have hplace : place m = .fifo f := hi.fifo (by rw [hpc]; rfl)
    rw [hplace] at hstands
    simp only [RequestState.Stands, hpc] at hstands
    exact ⟨.inl hplace, hstands.1 ▸ hl⟩
  · have hplace := hi.queue_iff.mp hm
    rw [hplace] at hstands
    exact ⟨.inr (.inl hplace), hstands.1 ▸ hl⟩
  · rcases mem_toFifo hm with hpc | ⟨func, hpc⟩
    · have hplace : place m = .input := hi.input (by rw [hpc]; rfl)
      rw [hplace] at hstands
      simp only [RequestState.Stands, hpc] at hstands
      exact ⟨.inr (.inr hplace), hstands.1 ▸ hl⟩
    · have hplace : place m = .input := hi.input (by rw [hpc]; rfl)
      rw [hplace] at hstands
      simp only [RequestState.Stands, hpc] at hstands
      exact ⟨.inr (.inr hplace), hstands.1 ▸ hl⟩

omit [DecidableEq β] in
theorem toFifo_congr (hinput : u.input = s.input)
    (hmem : ∀ m, s.input = .request m → u.out.mem m = s.out.mem m) (f : Fifo) :
    toFifo info u f = toFifo info s f := by
  unfold toFifo
  rw [hinput]
  cases hpc : s.input with
  | request m =>
    simp only
    rw [hmem m hpc]
  | get | call | wakeup | returned | giveback | submit => rfl

/-- A step that moves nothing in the line. -/
theorem line_same (hu : RequestInv info u place' q' batch' pend')
    (hring : IsRing u.out.links f.head (nodes (q f)))
    (hfifo : (u.fifo f).handles = (s.fifo f).handles) (hto : toFifo info u f = toFifo info s f) :
    line info s q f ++ [] = [] ++ line info u q' f := by
  rw [List.append_nil, List.nil_append, line, line, queue_unique hu hring, hfifo, hto]

/-- The thread behind a FIFO handles its block. -/
theorem line_handle {g : Fifo} {nand : Nand.MfNand} {status : Word} {allports : Serial.Allports}
    {argStatus : β → Word} {log : List (RequestEvent β)} (hpc : s.fifo g = .handle m)
    (hring : IsRing s.out.links f.head (nodes (q f)))
    (hu : RequestInv info {s.setFifo g (.giveback m status) with
      allports := allports
      argStatus := argStatus
      log := log} place' q' batch' pend') :
    line info s q f ++ [] = handling s f (.handle g nand) ++ line info {s.setFifo g (.giveback m status) with
      allports := allports
      argStatus := argStatus
      log := log} q' f := by
  have hq : q' f = q f := queue_unique hu hring
  have hto : toFifo info {s.setFifo g (.giveback m status) with
      allports := allports
      argStatus := argStatus
      log := log} f = toFifo info s f := toFifo_congr rfl (fun _ _ => rfl) f
  rw [List.append_nil, line, line, hq, hto]
  by_cases hg : g = f
  · subst hg
    simp [handling, hpc, FifoPc.handles]
  · simp [handling, hg, Ne.symm hg]

/-- **First in, first out**: a request that is received joins the line, and the one that is handled
is in front of it. -/
theorem line_step (hi : RequestInv info s place q batch pend)
    (hu : RequestInv info u place' q' batch' pend') (ha : RequestOk info s a)
    (h : requestStep info s a = some u) (f : Fifo) :
    line info s q f ++ arriving info f a = handling s f a ++ line info u q' f := by
  have hring := hi.ring f
  have hfifo : ∀ {g : Fifo} {pc : FifoPc β}, (s.fifo g).handles = [] → pc.handles = [] →
      ((s.setFifo g pc).fifo f).handles = (s.fifo f).handles := by
    intro g pc hs hpc
    by_cases hg : f = g
    · subst hg
      rw [setFifo_same, hs, hpc]
    · rw [setFifo_other _ _ hg]
  cases requestStep_cases h with
  | @receive m v node hpc =>
    have hq : q' f = q f := queue_unique hu ((receive_inv hi hpc ha.1 ha.2).ring f)
    simp [line, arriving, handling, toFifo, hpc, hq]
  | found hpc hfunc => exact line_same hu hring rfl (by simp [toFifo, hpc, CmdInfo.fifo, hfunc])
  | missing hpc hnone => exact line_same hu hring rfl (by simp [toFifo, hpc, CmdInfo.fifo, hnone])
  | other hpc | setbits hpc | answer hpc | deferred hpc | submitted hpc =>
    exact line_same hu hring rfl (by simp [toFifo, hpc, CmdFunc.fifo])
  | @put m func g hpc hg =>
    have hq : q' f = Function.update q g (q g ++ [m]) f := queue_unique hu ((put_inv hi hpc hg).ring f)
    by_cases hf : f = g
    · subst hf
      rw [Function.update_self] at hq
      simp [line, arriving, handling, toFifo, hpc, hg, hq]
    · rw [Function.update_of_ne hf] at hq
      simp [line, arriving, handling, toFifo, hpc, hg, hq, Ne.symm hf]
  | giveback hpc hs =>
    obtain ⟨_, _, hgiven⟩ := giveback_inv hi hpc hs
    exact line_same hu (hgiven.ring f) rfl (by simp [toFifo, hpc])
  | @get g m links hpc hget =>
    by_cases hf : f = g
    · subst hf
      rcases fifoGet_cases hring with ⟨_, hnone⟩ | ⟨k, rest, hq, hsome, hrest, _⟩
      · rw [hnone] at hget
        cases hget
      · rw [hsome] at hget
        cases hget
        have hq' : q' f = rest := queue_unique hu hrest
        have hto : toFifo info {s.setFifo f (.handle m) with
            out := {s.out with links := listDelInit s.out.links (.mreqb m)}} f = toFifo info s f :=
          toFifo_congr rfl (fun _ _ => rfl) f
        simp only [line, arriving, handling, hpc, hq, hq', hto, FifoPc.handles, setFifo_same,
          List.nil_append, List.append_nil, List.cons_append]
    · obtain ⟨rest, hgot⟩ := get_inv hi hpc hget
      have hkept := hgot.ring f
      rw [Function.update_of_ne hf] at hkept
      refine line_same hu hkept ?_ (toFifo_congr rfl (fun _ _ => rfl) f)
      exact congrArg FifoPc.handles (setFifo_other _ _ hf)
  | empty hpc _ | wait hpc _ | fifoSubmitted hpc _ =>
    exact line_same hu hring (hfifo (by rw [hpc]; rfl) rfl) (toFifo_congr rfl (fun _ _ => rfl) f)
  | serial hpc _ => exact line_handle hpc hring hu
  | nand hpc => exact line_handle hpc hring hu
  | @fifoGiveback g m status out hpc hs =>
    obtain ⟨_, _, hgiven⟩ := fifoGiveback_inv hi hpc hs
    have hmem : ∀ k, s.input = .request k → out.mem k = s.out.mem k := fun k hk => ?_
    · exact line_same hu (hgiven.ring f) (hfifo (by rw [hpc]; rfl) rfl) (toFifo_congr (by rfl) hmem f)
    have hkm : k ≠ m := by
      intro he
      subst he
      have hinput := hi.input (m := k) (by rw [hk]; rfl)
      have hplace := hi.fifo (f := g) (m := k) (by rw [hpc]; rfl)
      rw [hinput] at hplace
      cases hplace
    exact outputStep_mem hs (by simpa [OutputAction.written] using hkm)
  | port => exact line_same hu hring rfl rfl
  | @out b out hself hs =>
    obtain ⟨_, _, _, hout⟩ := out_inv hi hself hs
    have hmem : ∀ k, out.mem k = s.out.mem k := fun k => outputStep_mem hs fun hw => by
      cases b with
      | giveback | own => cases hself
      | submit | insert | setbits | take | flagWait | clean | detach | unlink | put => cases hw
    exact line_same hu (hout.ring f) rfl (toFifo_congr (by rfl) (fun k _ => hmem k) f)

end

end Mflib.Request
