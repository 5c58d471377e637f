import Mflib.Cpus.Serial

/-! What the two CPUs of a serial line keep, each by itself.

On the CPU that sends, the blocks of the requests that were appended are those that the mailbox
has accepted and after them those that are queued, in order, and a request on its way is as it
was appended. On the CPU that serves, only serial requests come, and their data goes to the
callbacks of the port they name. -/
namespace Mflib.Cpus
open Circular Micproto Request Serial

section
variable {β T : Type} [DecidableEq β] [DecidableEq T] {s : Serial.Stream β T} {u v : SendState β T}
  {a : SendAction β T} {batch pend inp free : List β} {created : β → Mreqb} {m : β}

/-! ### The CPU that sends -/

omit [DecidableEq β] [DecidableEq T] in
theorem not_remote (h : isRemote a = false) :
    (∀ m v node, a ≠ .net (.reply m v node)) ∧ ∀ m bytes, a ≠ .remoteBytes m bytes := by
  refine ⟨fun m v node he => ?_, fun m bytes he => ?_⟩
  · subst he
    cases h
  · subst he
    cases h

/-- What the mailbox has accepted, and what the other CPU has. -/
theorem send_accepted (hreply : ∀ m v node, a ≠ .net (.reply m v node))
    (h : sendStep u a = some v) :
    v.net.out.mailbox.map Submission.block =
        u.net.out.mailbox.map Submission.block ++ sendSent u a ∧
      v.net.remote = u.net.remote ++ sendSent u a := by
  have hnil : ∀ {l : List β}, l = l ++ [] := (List.append_nil _).symm
  cases sendStep_cases h with
  | nothing | send | down | up | lock | alloc | leave | fill | sent | unlock | portStatus
  | remoteBytes => exact ⟨hnil, hnil⟩
  | submit _ hs =>
    cases transportStep_cases hs with
    | out hout => exact ⟨outputStep_mailbox hout, rfl⟩
  | skip _ _ hs | complete _ _ hs =>
    cases transportStep_cases hs with
    | pool => exact ⟨hnil, hnil⟩
  | net _ hs =>
    cases transportStep_cases hs with
    | out hout => exact ⟨outputStep_mailbox hout, rfl⟩
    | reply => exact absurd rfl (hreply _ _ _)
    | invalid | response | pool => exact ⟨hnil, hnil⟩

/-- No step of the sending CPU touches a block that is on its way. -/
theorem sendStep_ahead [Fintype T] (hi : SendInv created u batch pend inp free)
    (hm : 0 < u.net.ahead batch pend m) (hreply : ∀ w node, a ≠ .net (.reply m w node))
    (hbytes : ∀ bytes, a ≠ .remoteBytes m bytes) (h : sendStep u a = some v) :
    v.net.out.mem m = u.net.out.mem m ∧ v.bytes m = u.bytes m := by
  have hcount : 0 < u.net.count batch pend inp m := Nat.add_pos_left hm _
  have hone := hi.net.once m
  cases sendStep_cases h with
  | nothing | send | down | up | lock | alloc | leave | sent | unlock | portStatus =>
    exact ⟨rfl, rfl⟩
  | @fill t k done c w ht _ _ =>
    have hidle := idle_of_taken ht free
    have hne : m ≠ c := by
      intro he
      subst he
      have hplaces := hi.once m
      simp only [SendState.places, SendState.used] at hplaces
      omega
    exact ⟨Function.update_of_ne hne _ _, Function.update_of_ne hne _ _⟩
  | submit _ hs => exact ⟨transportStep_mem hs List.not_mem_nil, rfl⟩
  | @remoteBytes c bytes hc =>
    have hne : m ≠ c := fun he => hbytes bytes (he ▸ rfl)
    exact ⟨rfl, Function.update_of_ne hne _ _⟩
  | skip _ _ hs => exact ⟨transportStep_mem hs List.not_mem_nil, rfl⟩
  | @complete i c net hc _ hs =>
    have hpos : 0 < u.net.back inp c := running_count hc
    have hne : m ≠ c := by
      intro he
      subst he
      simp only [Transport.count] at hone
      omega
    have hmem : net.out.mem m = u.net.out.mem m := transportStep_mem hs List.not_mem_nil
    exact ⟨(Function.update_of_ne hne _ _).trans hmem, rfl⟩
  | @net a net hself hs =>
    refine ⟨transportStep_mem hs fun hin => ?_, rfl⟩
    obtain ⟨⟨w, node, rfl⟩, _⟩ := written_reply hself hs hin
    exact hreply w node rfl

/-- What was appended is what was linked, and all of it are transfers. -/
structure Sends (s : Serial.Stream β T) : Prop where
  submitted : s.send.net.out.submitted = s.appended.map fun x => ⟨x.block, false⟩
  transfers : ∀ x ∈ s.appended, ∃ p, Proper p x ∧ ∀ q, x.isTransfer q = decide (q = p)

theorem sends_step [Fintype T] {size : Word} {edata : β → Pointer} (hi : StreamInv size edata s)
    (hs : Sends s) (h : sendStep s.send a = some v) : Sends (s.follow a v) := by
  have hquiet : v.net.out.submitted = s.send.net.out.submitted → a.appends s.send = [] →
      Sends (s.follow a v) := fun hsub happends => by
    have hlist : (s.follow a v).appended = s.appended :=
      (congrArg (s.appended ++ ·) happends).trans (List.append_nil _)
    exact ⟨hsub.trans (hs.submitted.trans (by rw [hlist])), by rw [hlist]; exact hs.transfers⟩
  cases sendStep_cases h with
  | nothing | send | down | up | lock | alloc | leave | fill | sent | unlock | portStatus
  | remoteBytes => exact hquiet rfl rfl
  | submit _ hs =>
    cases transportStep_cases hs with
    | out hout =>
      cases outputStep_cases hout with
      | submit => exact hquiet rfl rfl
  | skip _ _ hs | complete _ _ hs =>
    cases transportStep_cases hs with
    | pool => exact hquiet rfl rfl
  | net _ hn =>
    cases transportStep_cases hn with
    | reply | invalid | response | pool => exact hquiet rfl rfl
    | out hout =>
      cases outputStep_cases hout with
      | submit | giveback | setbits | own | sleep | take | flagWait | clean | detach | last
      | unlink | refused | accepted => exact hquiet rfl rfl
      | @insert c m hc =>
        have hplace := hi.placed c
        rw [hc] at hplace
        obtain ⟨k, done, hpc, hlt, hf⟩ := hplace.sending (by simp)
        obtain ⟨x, happends, hproper, _, htransfer⟩ := insert_appends (hf m rfl) hlt hc
        have hresponse : mreqbIsResponse (s.send.net.out.mem m) = false := by
          rw [mreqbIsResponse, (hf m rfl).cmd]
          rfl
        have hblock : x.block = m := by
          simp only [SendAction.appends, hc, hresponse, Bool.false_eq_true, if_false,
            List.cons.injEq, and_true] at happends
          exact congrArg Appended.block happends.symm
        have hlist : s.appended ++ (SendAction.net (.out (.insert c))).appends s.send =
            s.appended ++ [x] := congrArg (s.appended ++ ·) happends
        refine ⟨?_, ?_⟩
        · show s.send.net.out.submitted ++ [submission s.send.net.out.mem m] =
            (s.appended ++ (SendAction.net (.out (.insert c))).appends s.send).map _
          rw [hlist, List.map_append, hs.submitted, submission, hresponse, List.map_singleton, hblock]
        · show ∀ y ∈ s.appended ++ (SendAction.net (.out (.insert c))).appends s.send, _
          rw [hlist]
          intro y hy
          rcases List.mem_append.mp hy with hy | hy
          · exact hs.transfers y hy
          · rw [List.mem_singleton.mp hy]
            exact ⟨k.port, hproper, htransfer⟩

omit [DecidableEq T] in
/-- The requests that were appended, by their blocks: accepted, or still queued. -/
theorem Sends.blocks (hs : Sends s) (hi : TransportInv s.send.net batch pend inp) :
    s.appended.map Appended.block =
      s.send.net.out.mailbox.map Submission.block ++ (batch ++ pend) := by
  have hrequest : ∀ x ∈ s.send.net.out.submitted, (!x.response) = true := by
    rw [hs.submitted]
    intro x hx
    obtain ⟨y, _, rfl⟩ := List.mem_map.mp hx
    rfl
  have horder := hi.out.order
  rw [List.filter_eq_self.mpr hrequest,
    List.filter_eq_self.mpr fun x hx => hrequest x (hi.out.kept.mem_iff.mpr hx)] at horder
  have hblocks := congrArg (List.map Submission.block) horder
  rw [hs.submitted, List.map_append, List.map_map, List.map_map] at hblocks
  calc s.appended.map Appended.block
      = s.send.net.out.mailbox.map Submission.block ++
        (batch ++ pend).map (Submission.block ∘ submission s.send.net.out.mem) := hblocks
    _ = s.send.net.out.mailbox.map Submission.block ++ (batch ++ pend) := by
        rw [show Submission.block ∘ submission s.send.net.out.mem = id from rfl, List.map_id]

end

/-! ### The CPU that serves -/

section
variable {β : Type} [DecidableEq β] {info : CmdInfo} {s u : RequestState β} {place : β → Place}
  {q : Fifo → List β} {batch pend : List β} {a : RequestAction β} {m : β} {p : Fin maxMbserialNum}
  {log : List (RequestEvent β)}

theorem life_received {l : Life} {cmd : Word}
    (h : (requestLife info m).exec l log = some (.received cmd)) :
    l = .received cmd ∨ cmd ∈ commandsOn m log := by
  induction log generalizing l with
  | nil =>
    cases h
    exact .inl rfl
  | cons e rest ih =>
    obtain ⟨r, hs, hr⟩ := Lts.exec_cons h
    have hcommands : commandsOn m (e :: rest) = commandsOn m [e] ++ commandsOn m rest :=
      List.filterMap_append (l := [e])
    rw [hcommands, List.mem_append]
    rcases ih hr with hcmd | hcmd
    · subst hcmd
      by_cases he : e.block = m
      · rw [show (requestLife info m).step l e = info.live l e from if_pos he] at hs
        unfold CmdInfo.live at hs
        split at hs
        · cases hs
          simp only [RequestEvent.block] at he
          simp [commandsOn, he]
        · simp at hs
        · simp at hs
        · simp at hs
        · simp at hs
        · cases hs
      · rw [show (requestLife info m).step l e = some l from if_neg he] at hs
        cases hs
        exact .inl rfl
    · exact .inr (.inr hcmd)

/-- What is on its way to the thread behind a FIFO was received with the command it has. -/
theorem line_received (hi : RequestInv info s place q batch pend) {f : Fifo}
    (hm : m ∈ line info s q f) : Serves s m ∧ (s.out.mem m).cmd ∈ commandsOn m s.log := by
  obtain ⟨hplace, hl⟩ := line_stands hi hm
  refine ⟨(serves_iff hi).mpr ?_, (life_received hl).resolve_left (by simp)⟩
  rcases hplace with hplace | hplace | hplace <;> rw [hplace] <;> simp

/-- Only serial requests were received. -/
def OnlySerial (s : RequestState β) : Prop := ∀ m, ∀ cmd ∈ commandsOn m s.log, cmd = cSerialRequest

/-- No function of another handler is called then. -/
theorem no_other (hi : RequestInv info s place q batch pend)
    (hinfo : info.handler cSerialRequest = some .doMbserialRequest) (hs : OnlySerial s)
    {w : Mreqb} {status : Word} : requestStep info s (.other w status) = none := by
  cases hpc : s.input with
  | call m func =>
    cases func with
    | doMbserialRequest | doMbnandRequest => simp [requestStep, hpc]
    | other id =>
      obtain ⟨l, hl, hstands⟩ := hi.life m
      rw [hi.input (m := m) (by rw [hpc]; rfl)] at hstands
      simp only [RequestState.Stands, hpc] at hstands
      obtain ⟨rfl, _, hfunc⟩ := hstands
      have hcmd := hs m _ ((life_received hl).resolve_left (by simp))
      rw [hcmd, hinfo] at hfunc
      cases hfunc
  | get | request | wakeup | returned | giveback | submit => simp [requestStep, hpc]

/-- A port that is open stays so, unless a thread closes it. -/
theorem open_step (h : requestStep info s a = some u) (hclose : a ≠ .port p none)
    (hopen : s.allports p ≠ none) : u.allports p ≠ none := by
  have hset : ∀ (r : Fin maxMbserialNum) (status : Word),
      Function.update s.allports r (some status) p ≠ none := by
    intro r status
    by_cases hr : p = r
    · subst hr
      rw [Function.update_self]
      simp
    · rwa [Function.update_of_ne hr]
  cases requestStep_cases h with
  | @serial m allports ret nand _ hret =>
    show allports p ≠ none
    unfold handleMbserialRequest at hret
    simp only at hret
    split at hret
    · cases hret
      exact hopen
    · split at hret
      · split at hret
        · cases hret
          exact hopen
        · split at hret
          · cases hret
            exact hset _ _
          · split at hret
            · cases hret
              exact hset _ _
            · split at hret <;> cases hret <;> exact hopen
      · cases hret
  | @port r status =>
    show Function.update s.allports r status p ≠ none
    cases status with
    | some status => exact hset r status
    | none =>
      have hr : p ≠ r := fun he => hclose (he ▸ rfl)
      rwa [Function.update_of_ne hr]
  | receive | found | missing | other | put | setbits | answer | deferred | giveback | submitted
  | get | empty | wait | nand | fifoGiveback | fifoSubmitted | out => exact hopen

omit [DecidableEq β] in
/-- The thread `mailbox serial` handles a request, or nothing is given to callbacks. -/
theorem handling_cases (s : RequestState β) (a : RequestAction β) :
    (∃ m nand, a = .handle .serial nand ∧ s.fifo .serial = .handle m) ∨
      handling s .serial a = [] ∧ ∀ bytes r, given s bytes r a = [] := by
  cases a with
  | handle f nand =>
    cases f with
    | nand => exact .inr ⟨rfl, fun _ _ => rfl⟩
    | serial =>
      cases hpc : s.fifo .serial with
      | handle m => exact .inl ⟨m, nand, rfl, rfl⟩
      | lock | wait | giveback | submit =>
        exact .inr ⟨by simp [handling, hpc, FifoPc.handles], fun _ _ => by simp [given, hpc]⟩
  | receive | process | other | put | setbits | ret | giveback | submitted | get | wait
  | fifoGiveback | fifoSubmitted | port | out => exact .inr ⟨rfl, fun _ _ => rfl⟩

theorem line_names {reqb : Mreqb} {r : Fin maxMbserialNum}
    (h : mreqbGetArg reqb 0 = BitVec.ofNat 32 r.val) : Names reqb r := by
  have hr : r.val < 8 := r.isLt
  unfold Names
  rw [h, BitVec.toInt_eq_toNat_cond, BitVec.toNat_ofNat, Nat.mod_eq_of_lt (by omega)]
  split <;> omega

omit [DecidableEq β] in
/-- The data of a transfer is for the port it names, if that is open. -/
theorem datavail_transfer {allports : Allports} {x : Appended β} {r : Fin maxMbserialNum}
    {w : Mreqb} (hproper : Proper r x) (htransfer : ∀ r', x.isTransfer r' = decide (r' = r))
    (hw : AnswerTo x.request w) (hopen : allports p ≠ none) :
    datavail allports w x.bytes p = if x.isTransfer p then [x.payload] else [] := by
  have harg : ∀ i, mreqbGetArg w i = mreqbGetArg x.request i := fun i => by
    rw [hw]
    rfl
  have hline : Names w r := line_names ((harg 0).trans hproper.line)
  have hsub : w.subcmd = mbserialCmdDataTransfer := by
    have hself := htransfer r
    simp only [decide_true, Appended.isTransfer, decide_eq_true_eq] at hself
    rw [hw]
    exact hself.2.1
  rw [htransfer p]
  unfold datavail
  cases hstatus : allports r with
  | none =>
    have hrp : p ≠ r := fun he => hopen (he ▸ hstatus)
    have hrefused : ¬ ValidRequest (⟨allports, [], []⟩ : SerialState Unit) w := by
      rintro ⟨_, p', hp', hsome⟩
      rw [hp'.unique hline] at hsome
      exact hsome hstatus
    rw [serve_refused (by rw [hline]; omega) hrefused]
    simp [hrp]
  | some status =>
    rw [serve_open hline hstatus, hsub]
    by_cases hrp : p = r
    · subst hrp
      simp [mbserialCmdDataTransfer, mbserialCmdStartup, mbserialCmdShutdown, SerialState.use,
        Appended.payload, harg]
    · simp [mbserialCmdDataTransfer, mbserialCmdStartup, mbserialCmdShutdown, SerialState.use,
        hrp, Ne.symm hrp]

end

end Mflib.Cpus
