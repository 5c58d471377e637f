import Mflib.Request.Answers

/-! Two CPUs that pass blocks to each other.

One CPU submits requests and the other serves them, both by the same protocol. What the
mailbox of one accepts is a message to the other, and messages are taken out in any order;
a message is a block with its fields, as both CPUs see the memory of the blocks.

`Effect` says what a step of the serving CPU is to the other. `Linked` says where each
block is that the submitting CPU has sent and not got back, and that its fields are the
same on both sides but for the answer. -/
namespace Mflib.Cpus
open Circular Micproto Request

section
variable {β T : Type}

/-- A block that `input_thread` takes for a request, with a line from 0 if it is for a port. -/
structure IsRequest (info : CmdInfo) (v : Mreqb) : Prop where
  magic : v.magic = mreqbMagic
  request : mreqbIsResponse v = false
  line : LineOk info v

/-- The fields of `w` are those of `v`, but for the answer. -/
def AnswerTo (v w : Mreqb) : Prop := w = {v with cmd := w.cmd, result := w.result}

instance (v w : Mreqb) : Decidable (AnswerTo v w) := inferInstanceAs (Decidable (_ = _))

theorem AnswerTo.refl (v : Mreqb) : AnswerTo v v := rfl

theorem AnswerTo.trans {u v w : Mreqb} (h : AnswerTo u v) (h' : AnswerTo v w) : AnswerTo u w := by
  unfold AnswerTo at h h' ⊢
  rw [h', h]

theorem AnswerTo.givenBack (v : Mreqb) (status : Word) : AnswerTo v (v.givenBack status) := rfl

/-- The function of another handler leaves its block alone but for the answer. -/
def KeepsBlock (s : RequestState β) : RequestAction β → Prop
  | .other v _ => s.input.hand.all (fun m => AnswerTo (s.out.mem m) v) = true
  | _ => True

/-- It returns a status: the block is not passed on. -/
def ReturnsStatus : RequestAction β → Prop
  | .other _ status => status ≠ mreqbRetPending
  | _ => True

instance (s : RequestState β) (a : RequestAction β) : Decidable (KeepsBlock s a) := match a with
  | .other _ _ => inferInstanceAs (Decidable (_ = _))
  | .receive _ _ _ | .process | .put | .setbits | .ret | .giveback | .submitted | .get _ | .wait _
  | .handle _ _ | .fifoGiveback _ | .fifoSubmitted _ | .port _ _ | .out _ => .isTrue trivial

instance (a : RequestAction β) : Decidable (ReturnsStatus a) := match a with
  | .other _ _ => inferInstanceAs (Decidable (_ ≠ _))
  | .receive _ _ _ | .process | .put | .setbits | .ret | .giveback | .submitted | .get _ | .wait _
  | .handle _ _ | .fifoGiveback _ | .fifoSubmitted _ | .port _ _ | .out _ => .isTrue trivial

def isReceive : RequestAction β → Bool
  | .receive _ _ _ => true
  | _ => false

/-- The blocks that leave in a step. -/
def leftBy (s : RequestState β) : RequestAction β → List β
  | .out a => a.accepted s.out
  | _ => []

variable [DecidableEq β]

/-- The commands with which a block was received. -/
def commandsOn (m : β) (log : List (RequestEvent β)) : List Word :=
  log.filterMap fun e => match e with
    | .received k cmd => if k = m then some cmd else none
    | _ => none

/-- What the handlers returned for a block. -/
def statusesOn (m : β) (log : List (RequestEvent β)) : List Word :=
  log.filterMap fun e => match e with
    | .missing k => if k = m then some mreqbRetNohandle else none
    | .handled k status => if k = m then some status else none
    | _ => none

/-- A block as it left, each time. -/
def answersOn (m : β) (log : List (RequestEvent β)) : List Mreqb :=
  log.filterMap fun e => match e with
    | .left k v => if k = m then some v else none
    | _ => none

/-- The serving CPU has the block. -/
def Serves (s : RequestState β) (m : β) : Prop := leftCount m s.log < receivedCount m s.log

instance (s : RequestState β) (m : β) : Decidable (Serves s m) :=
  inferInstanceAs (Decidable (_ < _))

/-- What a step of the serving CPU is to the other one. -/
structure Effect (s u : RequestState β) (left : List β) : Prop where
  commands : ∀ m, commandsOn m u.log = commandsOn m s.log
  answers : ∀ m, answersOn m u.log = answersOn m s.log ++ if m ∈ left then [u.out.mem m] else []
  leaves : ∀ m, leftCount m u.log = leftCount m s.log + left.count m
  answered : ∀ m ∈ left, mreqbIsResponse (u.out.mem m) = true
  fields : ∀ m, AnswerTo (s.out.mem m) (u.out.mem m)
  others : ∀ m, ¬ Serves s m → u.out.mem m = s.out.mem m ∧
    u.out.links (.mreqb m) = s.out.links (.mreqb m)

variable {info : CmdInfo} {s u : RequestState β} {place : β → Place} {q : Fifo → List β}
  {batch pend : List β} {m : β} {a : RequestAction β}

theorem commandsOn_append (m : β) (xs ys : List (RequestEvent β)) :
    commandsOn m (xs ++ ys) = commandsOn m xs ++ commandsOn m ys :=
  List.filterMap_append

theorem answersOn_append (m : β) (xs ys : List (RequestEvent β)) :
    answersOn m (xs ++ ys) = answersOn m xs ++ answersOn m ys :=
  List.filterMap_append

theorem receivedCount_eq (m : β) (log : List (RequestEvent β)) :
    receivedCount m log = (commandsOn m log).length := by
  unfold receivedCount commandsOn
  rw [List.length_filterMap_eq_countP]
  refine List.countP_congr fun e _ => ?_
  cases e with
  | received k cmd =>
    by_cases hk : k = m
    · simp [hk]
    · simp [hk]
  | missing | handled | gaveBack | left => simp

theorem leftCount_eq (m : β) (log : List (RequestEvent β)) :
    leftCount m log = (answersOn m log).length := by
  unfold leftCount answersOn
  rw [List.length_filterMap_eq_countP]
  refine List.countP_congr fun e _ => ?_
  cases e with
  | left k v =>
    by_cases hk : k = m
    · simp [hk]
    · simp [hk]
  | missing | handled | gaveBack | received => simp

theorem Effect.received {s u : RequestState β} {left : List β} (he : Effect s u left) (m : β) :
    receivedCount m u.log = receivedCount m s.log := by
  rw [receivedCount_eq, receivedCount_eq, he.commands m]

theorem requestInv_of {links : Links β} {mem : β → Mreqb} {allports : Serial.Allports}
    {argStatus : β → Word}
    (h : (requests info links mem allports argStatus).ReachableUnder (RequestOk info) s) :
    ∃ place q batch pend, RequestInv info s place q batch pend :=
  h.invariant ⟨_, _, _, _, requestStart_inv links mem allports argStatus⟩ requestStep_inv

/-! ### Who serves a block -/

theorem serves_iff (hi : RequestInv info s place q batch pend) :
    Serves s m ↔ place m ≠ .remote := by
  obtain ⟨p, hp, hstands⟩ := hi.life m
  have hcount : receivedCount m s.log + 0 = leftCount m s.log + p.here := (requestLife_count hp).2
  unfold Serves
  constructor
  · intro hlt hplace
    rw [hplace] at hstands
    cases hstands
    simp only [Life.here] at hcount
    omega
  · intro hplace
    have haway : p ≠ .away := by
      intro he
      subst he
      exact hplace (Stands.remote hstands)
    have hhere : p.here = 1 := by
      cases p with
      | away => exact absurd rfl haway
      | received | handled | gaveBack => rfl
    omega

/-- A block was received at least as often as it left, and once more while it is served. -/
theorem served_once (hi : RequestInv info s place q batch pend) (m : β) :
    leftCount m s.log ≤ receivedCount m s.log ∧
      receivedCount m s.log ≤ leftCount m s.log + 1 := by
  obtain ⟨p, hp, _⟩ := hi.life m
  have hcount : receivedCount m s.log + 0 = leftCount m s.log + p.here := (requestLife_count hp).2
  have hle : p.here ≤ 1 := by cases p <;> simp [Life.here]
  omega

theorem serves_input (hi : RequestInv info s place q batch pend)
    (h : s.input.hand = some m) : Serves s m := by
  rw [serves_iff hi, hi.input h]
  simp

theorem serves_fifo (hi : RequestInv info s place q batch pend) {f : Fifo}
    (h : (s.fifo f).hand = some m) : Serves s m := by
  rw [serves_iff hi, hi.fifo h]
  simp

/-! ### What the serving CPU answers -/

/-- The status of a block that has one and is not back. -/
def known : Life → List Word
  | .handled status => [status]
  | .gaveBack status => [status]
  | _ => []

/-- What a step of the serving CPU asks of the other is for blocks that arrive. -/
theorem requestOk_of_returns (ha : ReturnsStatus a)
    (hrec : ∀ m v node, a ≠ .receive m v node) : RequestOk info s a := by
  cases a with
  | receive m v node => exact absurd rfl (hrec m v node)
  | other => exact ha
  | process | put | setbits | ret | giveback | submitted | get | wait | handle | fifoGiveback
  | fifoSubmitted | port | out => trivial

theorem live_answers {e : RequestEvent β} {p p' : Life} (h : (requestLife info m).step p e = some p') :
    known p ++ statusesOn m [e] = (answersOn m [e]).map Mreqb.result ++ known p' := by
  by_cases he : e.block = m
  · rw [show (requestLife info m).step p e = info.live p e from if_pos he] at h
    unfold CmdInfo.live at h
    split at h
    · cases h
      rfl
    · rw [Option.ite_none_right_eq_some] at h
      obtain ⟨_, h⟩ := h
      cases h
      simp only [RequestEvent.block] at he
      simp [known, statusesOn, answersOn, he]
    · rw [Option.ite_none_left_eq_some] at h
      obtain ⟨_, h⟩ := h
      cases h
      simp only [RequestEvent.block] at he
      simp [known, statusesOn, answersOn, he]
    · rw [Option.ite_none_right_eq_some] at h
      obtain ⟨_, h⟩ := h
      cases h
      rfl
    · rw [Option.ite_none_right_eq_some] at h
      obtain ⟨⟨_, hresult⟩, h⟩ := h
      cases h
      simp only [RequestEvent.block] at he
      simp [known, statusesOn, answersOn, he, hresult]
    · cases h
  · rw [show (requestLife info m).step p e = some p from if_neg he] at h
    cases h
    cases e with
    | received | missing | handled | gaveBack | left =>
      have hk : ¬ _ = m := he
      simp only [RequestEvent.block] at hk
      simp [statusesOn, answersOn, hk]

/-- A block leaves each time with the status that its handler returned. -/
theorem life_answers {log : List (RequestEvent β)} {p p' : Life}
    (h : (requestLife info m).exec p log = some p') :
    known p ++ statusesOn m log = (answersOn m log).map Mreqb.result ++ known p' := by
  induction log generalizing p with
  | nil =>
    cases h
    exact List.append_nil _
  | cons e rest ih =>
    obtain ⟨r, hs, hr⟩ := Lts.exec_cons h
    have hstatuses : statusesOn m (e :: rest) = statusesOn m [e] ++ statusesOn m rest :=
      List.filterMap_append (l := [e])
    have hanswers : answersOn m (e :: rest) = answersOn m [e] ++ answersOn m rest :=
      List.filterMap_append (l := [e])
    calc known p ++ statusesOn m (e :: rest)
        = (answersOn m [e]).map Mreqb.result ++ (known r ++ statusesOn m rest) := by
          rw [hstatuses, ← List.append_assoc, live_answers hs, List.append_assoc]
      _ = (answersOn m (e :: rest)).map Mreqb.result ++ known p' := by
          rw [ih hr, hanswers, List.map_append, List.append_assoc]

/-! ### The steps of the serving CPU -/

/-- A step after which nothing has arrived or left. -/
theorem Effect.inside (log : List (RequestEvent β)) (hlog : u.log = s.log ++ log)
    (hnone : ∀ m, commandsOn m log = [] ∧ answersOn m log = [])
    (hfields : ∀ m, AnswerTo (s.out.mem m) (u.out.mem m))
    (hothers : ∀ m, ¬ Serves s m → u.out.mem m = s.out.mem m ∧
      u.out.links (.mreqb m) = s.out.links (.mreqb m)) : Effect s u [] where
  commands := fun m => by
    rw [hlog, commandsOn_append, (hnone m).1, List.append_nil]
  answers := fun m => by
    rw [hlog, answersOn_append, (hnone m).2]
    rfl
  leaves := fun m => by
    rw [leftCount_eq, leftCount_eq, hlog, answersOn_append, (hnone m).2, List.append_nil]
    rfl
  answered := fun _ hm => absurd hm List.not_mem_nil
  fields := hfields
  others := hothers

/-- It writes nothing. -/
theorem Effect.quiet (log : List (RequestEvent β)) (hlog : u.log = s.log ++ log)
    (hnone : ∀ m, commandsOn m log = [] ∧ answersOn m log = []) (hmem : u.out.mem = s.out.mem)
    (hlinks : ∀ m, ¬ Serves s m → u.out.links (.mreqb m) = s.out.links (.mreqb m)) :
    Effect s u [] :=
  .inside log hlog hnone (fun m => hmem ▸ .refl _) fun m hm => ⟨by rw [hmem], hlinks m hm⟩

/-- It writes one block, that the CPU serves. -/
theorem Effect.write (log : List (RequestEvent β)) (hlog : u.log = s.log ++ log)
    (hnone : ∀ m, commandsOn m log = [] ∧ answersOn m log = []) {v : Mreqb} (hm : Serves s m)
    (hmem : u.out.mem = Function.update s.out.mem m v) (hv : AnswerTo (s.out.mem m) v)
    (hlinks : u.out.links = s.out.links) : Effect s u [] := by
  refine .inside log hlog hnone (fun k => ?_) fun k hk => ?_
  · rw [hmem]
    by_cases hkm : k = m
    · subst hkm
      rw [Function.update_self]
      exact hv
    · rw [Function.update_of_ne hkm]
      exact .refl _
  · have hkm : k ≠ m := fun he => hk (he ▸ hm)
    rw [hmem, hlinks, Function.update_of_ne hkm]
    exact ⟨rfl, rfl⟩

theorem leaving_on {out : OutputState β Server} {b : OutputAction β Server} (m : β) :
    commandsOn m (leaving out b) = [] ∧
      answersOn m (leaving out b) = (if m ∈ b.accepted out then [out.mem m] else []) ∧
      (answersOn m (leaving out b)).length = (b.accepted out).count m := by
  cases b with
  | put accepted =>
    cases accepted with
    | false => exact ⟨rfl, rfl, rfl⟩
    | true =>
      cases hpc : out.thread with
      | push p next =>
        cases p with
        | mreqb k =>
          simp only [leaving, OutputAction.accepted, hpc, commandsOn, answersOn,
            List.filterMap_cons, List.filterMap_nil, List.mem_singleton, List.count_singleton]
          by_cases hk : k = m
          · simp [hk]
          · simp [hk, Ne.symm hk]
        | outputPending | tempHead | inputPending | reservePool | serialFifo | nandFifo =>
          simp [leaving, OutputAction.accepted, hpc, commandsOn, answersOn]
      | lock | wait | clean | detach | unlink =>
        simp [leaving, OutputAction.accepted, hpc, commandsOn, answersOn]
  | submit | giveback | insert | setbits | own | take | flagWait | clean | detach | unlink =>
    exact ⟨rfl, rfl, rfl⟩

/-- What the mailbox accepts of the serving CPU is an answer. -/
theorem accepted_response (hi : RequestInv info s place q batch pend)
    {b : OutputAction β Server} {out : OutputState β Server} (hb : onItsOwn b = true)
    (hs : outputStep s.out b = some out) (hm : m ∈ b.accepted s.out) :
    mreqbIsResponse (out.mem m) = true := by
  have hout : m ∈ batch ++ pend := by
    cases b with
    | put accepted =>
      obtain ⟨_, _, _, _, hcount⟩ := hi.outputStep (fun k hk => by cases hk) hs
      have hk := hcount m
      have hpos := List.count_pos_iff.mpr hm
      rw [← List.count_pos_iff]
      simp only [OutputAction.linked, List.count_nil] at hk
      omega
    | submit | giveback | insert | setbits | own | take | flagWait | clean | detach | unlink => cases hm
  obtain ⟨p, _, hstands⟩ := hi.life m
  rw [hi.output_iff.mp hout] at hstands
  have hmem : out.mem m = s.out.mem m := outputStep_mem hs fun hw => by
    cases b with
    | giveback | own => cases hb
    | submit | insert | setbits | take | flagWait | clean | detach | unlink | put => cases hw
  rw [hmem]
  exact hstands.2

/-- Steps of the output path on its own link no block but those it has. -/
theorem out_links (hi : RequestInv info s place q batch pend)
    {b : OutputAction β Server} {out : OutputState β Server} (hb : onItsOwn b = true)
    (hs : outputStep s.out b = some out) (hm : ¬ Serves s m) :
    out.links (.mreqb m) = s.out.links (.mreqb m) := by
  rw [serves_iff hi, not_not] at hm
  refine outputStep_frame hi.out hs (by simp) (by simp) ?_ fun k hk he => ?_
  · rw [mreqb_mem_nodes, hi.output_iff, hm]
    simp
  · cases he
    cases b with
    | insert t =>
      simp only [OutputAction.blocks] at hk
      split at hk
      · rename_i b ht
        rw [List.mem_singleton] at hk
        subst hk
        rw [hi.link ht] at hm
        cases hm
      · cases hk
    | submit | giveback | own => cases hb
    | setbits | take | flagWait | clean | detach | unlink | put => cases hk

theorem serve_effect (hi : RequestInv info s place q batch pend) (hkeeps : KeepsBlock s a)
    (hrec : ∀ m v node, a ≠ .receive m v node) (h : requestStep info s a = some u) :
    Effect s u (leftBy s a) := by
  have hsame : ∀ k, ¬ Serves s k → s.out.links (.mreqb k) = s.out.links (.mreqb k) :=
    fun _ _ => rfl
  have hnil : ∀ k, commandsOn k ([] : List (RequestEvent β)) = [] ∧
      answersOn k ([] : List (RequestEvent β)) = [] := fun _ => ⟨rfl, rfl⟩
  have happ : s.log = s.log ++ [] := (List.append_nil _).symm
  cases requestStep_cases h with
  | receive => exact absurd rfl (hrec _ _ _)
  | found | setbits | answer | deferred | submitted | empty | wait | fifoSubmitted | port =>
    exact .quiet [] happ hnil rfl hsame
  | missing | serial | nand => exact .quiet _ rfl (fun _ => ⟨rfl, rfl⟩) rfl hsame
  | @other k id v status hpc =>
    have hhand : s.input.hand = some k := by
      rw [hpc]
      rfl
    have hv : AnswerTo (s.out.mem k) v := by
      simpa only [KeepsBlock, hhand, Option.all_some, decide_eq_true_eq] using hkeeps
    exact .write _ rfl (fun _ => ⟨rfl, rfl⟩) (serves_input hi hhand) rfl hv rfl
  | @put k func f hpc hf =>
    refine .quiet [] happ hnil rfl fun b hb => ?_
    have hk : Serves s k := serves_input hi (by rw [hpc]; rfl)
    rw [serves_iff hi, not_not] at hb
    refine fifoPut_frame (hi.ring f) ?_ fun he => ?_
    · simp only [List.mem_cons, mreqb_mem_nodes, not_or]
      refine ⟨fun he => (head_ne (β := β) f).2.2.1 b he.symm, fun hin => ?_⟩
      rw [hi.queue_iff.mp hin] at hb
      cases hb
    · cases he
      exact (serves_iff hi).mp hk hb
  | @get f k links hpc hget =>
    refine .quiet [] happ hnil rfl fun b hb => ?_
    rw [serves_iff hi, not_not] at hb
    rcases fifoGet_cases (hi.ring f) with ⟨_, hnone⟩ | ⟨j, rest, _, hsome, _, hframe⟩
    · rw [hnone] at hget
      cases hget
    · rw [hsome] at hget
      cases hget
      refine hframe _ ?_
      simp only [List.mem_cons, mreqb_mem_nodes, not_or]
      refine ⟨fun he => (head_ne (β := β) f).2.2.1 b he.symm, fun hin => ?_⟩
      rw [hi.queue_iff.mp hin] at hb
      cases hb
  | @giveback k status out hpc hs =>
    have hk : Serves s k := serves_input hi (by rw [hpc]; rfl)
    cases outputStep_cases hs with
    | giveback => exact .write _ rfl (fun _ => ⟨rfl, rfl⟩) hk rfl (.givenBack _ _) rfl
  | @fifoGiveback f k status out hpc hs =>
    have hk : Serves s k := serves_fifo hi (by rw [hpc]; rfl)
    cases outputStep_cases hs with
    | giveback => exact .write _ rfl (fun _ => ⟨rfl, rfl⟩) hk rfl (.givenBack _ _) rfl
  | @out b out hb hs =>
    have hmem : ∀ k, out.mem k = s.out.mem k := fun k => outputStep_mem hs fun hw => by
      cases b with
      | giveback | own => cases hb
      | submit | insert | setbits | take | flagWait | clean | detach | unlink | put => cases hw
    have hleaving : ∀ k, commandsOn k (leaving s.out b) = [] ∧
        answersOn k (leaving s.out b) = (if k ∈ b.accepted s.out then [s.out.mem k] else []) ∧
        (answersOn k (leaving s.out b)).length = (b.accepted s.out).count k := fun k => leaving_on k
    refine ⟨fun k => ?_, fun k => ?_, fun k => ?_, fun k hk => accepted_response hi hb hs hk,
      fun k => (hmem k).symm ▸ .refl _,
      fun k hk => ⟨hmem k, out_links hi hb hs hk⟩⟩
    · rw [commandsOn_append, (hleaving k).1, List.append_nil]
    · rw [answersOn_append, (hleaving k).2.1, hmem k]
      rfl
    · rw [leftCount_eq, leftCount_eq, answersOn_append, List.length_append, (hleaving k).2.2]
      rfl

/-! ### The messages between the CPUs -/

/-- Where the blocks are that were sent and are not back, and what is in them. -/
structure Linked (info : CmdInfo) (net : Transport β T) (s : RequestState β)
    (asked answers : List β) : Prop where
  count : ∀ m, net.remote.count m + leftCount m s.log =
    asked.count m + answers.count m + receivedCount m s.log
  requests : ∀ m ∈ asked, IsRequest info (net.out.mem m)
  fields : ∀ m, Serves s m ∨ m ∈ answers → AnswerTo (net.out.mem m) (s.out.mem m)
  responses : ∀ m ∈ answers, mreqbIsResponse (s.out.mem m) = true

variable {net net' : Transport β T} {asked answers left sent : List β}

/-- A message, or the serving CPU, has a block only while the submitting one is without it. -/
theorem Linked.away (hl : Linked info net s asked answers) (hi : RequestInv info s place q batch pend)
    (h : m ∈ asked ∨ m ∈ answers ∨ Serves s m) : m ∈ net.remote := by
  have hcount := hl.count m
  have honce := served_once hi m
  refine List.count_pos_iff.mp ?_
  unfold Serves at h
  rw [← List.count_pos_iff, ← List.count_pos_iff] at h
  omega

/-- The other CPU has a block at most once. -/
theorem remote_le_one {batch pend inp : List β} (hi : TransportInv net batch pend inp)
    (m : β) : net.remote.count m ≤ 1 := by
  have hone := hi.once m
  simp only [Transport.count, Transport.ahead] at hone
  omega

/-- In one message at most, and not served then. -/
theorem Linked.alone (hl : Linked info net s asked answers) (hi : RequestInv info s place q batch pend)
    (hone : net.remote.count m ≤ 1) :
    (m ∈ asked → m ∉ answers ∧ ¬ Serves s m ∧ asked.count m = 1) ∧
      (m ∈ answers → m ∉ asked ∧ ¬ Serves s m ∧ answers.count m = 1) := by
  have hcount := hl.count m
  have honce := served_once hi m
  unfold Serves
  refine ⟨fun hm => ?_, fun hm => ?_⟩
  · rw [← List.count_eq_zero]
    rw [← List.count_pos_iff] at hm
    omega
  · rw [← List.count_eq_zero]
    rw [← List.count_pos_iff] at hm
    omega

/-- The submitting CPU goes on, and its mailbox accepts requests. -/
theorem Linked.ask (hl : Linked info net s asked answers) (hi : RequestInv info s place q batch pend)
    (hremote : net'.remote = net.remote ++ sent)
    (hmem : ∀ m ∈ net.remote, net'.out.mem m = net.out.mem m)
    (hsent : ∀ m ∈ sent, IsRequest info (net'.out.mem m)) :
    Linked info net' s (asked ++ sent) answers where
  count := fun m => by
    have hcount := hl.count m
    rw [hremote, List.count_append, List.count_append]
    omega
  requests := fun m hm => by
    rcases List.mem_append.mp hm with hm | hm
    · rw [hmem m (hl.away hi (.inl hm))]
      exact hl.requests m hm
    · exact hsent m hm
  fields := fun m hm => by
    rw [hmem m (hl.away hi (hm.elim (fun h => .inr (.inr h)) fun h => .inr (.inl h)))]
    exact hl.fields m hm
  responses := hl.responses

/-- The serving CPU goes on, and its mailbox accepts answers. -/
theorem Linked.serve (hl : Linked info net s asked answers) (hi : RequestInv info s place q batch pend)
    (hone : ∀ m, net.remote.count m ≤ 1) (hu : ∀ m, leftCount m u.log ≤ receivedCount m u.log)
    (he : Effect s u left) : Linked info net u asked (answers ++ left) where
  count := fun m => by
    have hcount := hl.count m
    have hleft := he.leaves m
    have hreceived := he.received m
    rw [List.count_append]
    omega
  requests := hl.requests
  fields := fun m hm => by
    have hleft := he.leaves m
    have hreceived := he.received m
    have hle := hu m
    have hold : Serves s m ∨ m ∈ answers := by
      unfold Serves at hm ⊢
      rw [List.mem_append, ← List.count_pos_iff (l := left)] at hm
      by_cases hin : m ∈ answers
      · exact .inr hin
      · refine .inl ?_
        rcases hm with hm | hm | hm
        · omega
        · exact absurd hm hin
        · omega
    exact (hl.fields m hold).trans (he.fields m)
  responses := fun m hm => by
    rcases List.mem_append.mp hm with hm | hm
    · rw [(he.others m ((hl.alone hi (hone m)).2 hm).2.1).1]
      exact hl.responses m hm
    · exact he.answered m hm

/-- A request arrives as it was sent. -/
theorem Linked.deliver (hl : Linked info net s asked answers)
    (hi : RequestInv info s place q batch pend) (hone : ∀ m, net.remote.count m ≤ 1)
    (hm : m ∈ asked) (hlog : u.log = s.log ++ [.received m (net.out.mem m).cmd])
    (hmem : u.out.mem = Function.update s.out.mem m (net.out.mem m)) :
    Linked info net u (asked.erase m) answers := by
  have hreceived : ∀ k, receivedCount k u.log = receivedCount k s.log + if k = m then 1 else 0 := by
    intro k
    rw [receivedCount_eq, receivedCount_eq, hlog, commandsOn_append]
    by_cases hk : k = m
    · simp [commandsOn, hk]
    · simp [commandsOn, hk, Ne.symm hk]
  have hleft : ∀ k, leftCount k u.log = leftCount k s.log := by
    intro k
    rw [leftCount_eq, leftCount_eq, hlog, answersOn_append]
    exact congrArg List.length (List.append_nil _)
  obtain ⟨hanswers, _, hcount⟩ := (hl.alone hi (hone m)).1 hm
  refine ⟨fun k => ?_, fun k hk => hl.requests k (List.mem_of_mem_erase hk), fun k hk => ?_,
    fun k hk => ?_⟩
  · have hold := hl.count k
    rw [hreceived, hleft, List.count_erase]
    by_cases hkm : k = m
    · subst hkm
      simp only [beq_self_eq_true, if_true]
      omega
    · simp only [beq_iff_eq, hkm, Ne.symm hkm, if_false]
      omega
  · rw [hmem]
    by_cases hkm : k = m
    · subst hkm
      rw [Function.update_self]
      exact .refl _
    · rw [Function.update_of_ne hkm]
      refine hl.fields k (hk.imp_left fun hs => ?_)
      unfold Serves at hs ⊢
      rw [hreceived, hleft, if_neg hkm] at hs
      exact hs
  · have hkm : k ≠ m := fun he => hanswers (he ▸ hk)
    rw [hmem, Function.update_of_ne hkm]
    exact hl.responses k hk

/-- An answer arrives as it was sent. -/
theorem Linked.answer (hl : Linked info net s asked answers)
    (hi : RequestInv info s place q batch pend) (hone : ∀ m, net.remote.count m ≤ 1)
    (hm : m ∈ answers) (hremote : net'.remote = net.remote.erase m)
    (hmem : net'.out.mem = Function.update net.out.mem m (s.out.mem m)) :
    Linked info net' s asked (answers.erase m) := by
  obtain ⟨hasked, hserves, hcount⟩ := (hl.alone hi (hone m)).2 hm
  have hgone : m ∉ answers.erase m := by
    rw [← List.count_eq_zero, List.count_erase_self]
    omega
  refine ⟨fun k => ?_, fun k hk => ?_, fun k hk => ?_,
    fun k hk => hl.responses k (List.mem_of_mem_erase hk)⟩
  · have hold := hl.count k
    have hin := List.count_pos_iff.mpr (hl.away hi (.inr (.inl hm)))
    rw [hremote, List.count_erase, List.count_erase]
    by_cases hkm : k = m
    · subst hkm
      simp only [beq_self_eq_true, if_true]
      omega
    · simp only [beq_iff_eq, Ne.symm hkm, if_false]
      omega
  · have hkm : k ≠ m := fun he => hasked (he ▸ hk)
    rw [hmem, Function.update_of_ne hkm]
    exact hl.requests k hk
  · have hkm : k ≠ m := by
      intro he
      subst he
      exact hk.elim hserves hgone
    rw [hmem, Function.update_of_ne hkm]
    exact hl.fields k (hk.imp_right List.mem_of_mem_erase)

/-! ### The steps of the submitting CPU -/

/-- What the mailbox of the submitting CPU accepts in a step. -/
def sentBy (net : Transport β T) : TransportAction β T → List β
  | .out a => a.accepted net.out
  | _ => []

/-- A step leaves alone what the other CPU has. -/
theorem transport_away [DecidableEq T] {b : TransportAction β T} {batch pend inp : List β}
    (hi : TransportInv net batch pend inp)
    (hent : ∀ m ∈ b.blocks net, net.count batch pend inp m = 0)
    (hreply : ∀ m v node, b ≠ .reply m v node) (h : transportStep net b = some net') :
    net'.remote = net.remote ++ sentBy net b ∧ ∀ m ∈ net.remote,
      net'.out.mem m = net.out.mem m ∧ net'.out.links (.mreqb m) = net.out.links (.mreqb m) := by
  have hpos : ∀ m ∈ net.remote, 0 < net.count batch pend inp m := fun m hm => by
    have hcount := List.count_pos_iff.mpr hm
    simp only [Transport.count, Transport.ahead]
    omega
  have hapart : ∀ m ∈ net.remote, m ∉ batch ++ pend ∧ m ∉ inp := fun m hm => by
    have hcount := List.count_pos_iff.mpr hm
    exact hi.apart (by omega)
  cases transportStep_cases h with
  | @out a out hs =>
    refine ⟨rfl, fun m hm => ⟨outputStep_mem hs fun hw => ?_, ?_⟩⟩
    · have hin : m ∈ a.blocks net.out := by
        cases a with
        | giveback | own => exact hw
        | submit | insert | setbits | take | flagWait | clean | detach | unlink | put => cases hw
      have hzero := hent m hin
      have hmore := hpos m hm
      omega
    · refine outputStep_frame hi.out hs (by simp) (by simp) ?_ fun k hk he => ?_
      · rw [mreqb_mem_nodes]
        exact (hapart m hm).1
      · cases he
        have hzero := hent m hk
        have hmore := hpos m hm
        omega
  | reply => exact absurd rfl (hreply _ _ _)
  | invalid | response => exact ⟨(List.append_nil _).symm, fun _ _ => ⟨rfl, rfl⟩⟩
  | @pool a pool op hrec hs =>
    refine ⟨(List.append_nil _).symm, fun m hm => ⟨rfl, relink_frame hi.input ?_ fun k hop he => ?_⟩⟩
    · simp only [List.mem_cons, reduceCtorEq, mreqb_mem_nodes, false_or]
      exact (hapart m hm).2
    · cases he
      subst hop
      have hhand := handCount_append (poolStep_append hs)
      have hone := hi.once m
      have hcount := List.count_pos_iff.mpr hm
      simp only [Transport.count, Transport.ahead, Transport.back] at hone
      omega

end

end Mflib.Cpus
