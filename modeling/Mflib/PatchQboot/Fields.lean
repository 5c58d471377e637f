import Mflib.PatchQboot.Passes

/-! What the image patcher changes.

`filled` is the image with the fields of the given options filled in. A pass looks for its
marker in the image the passes before have left, and nothing tests how long a string is but
for the command line, which may be as long as its field. `main_patchesFields_iff` says for
which images and strings the tool fills the fields and changes nothing else. -/
namespace Mflib.PatchQboot
open Cells

/-- The bytes of a field, behind its marker at `o`. -/
def Field.Area (field : Field) (o i : Nat) : Prop :=
  o + field.marker.length ≤ i ∧ i < o + field.marker.length + field.max

/-- The string, and zeros to the end of the field. -/
def Field.content (field : Field) (text : CString) : List Byte :=
  text.chars ++ List.replicate (field.max - text.chars.length) 0

/-- A field that is given, and where it is in the image. -/
def Given (image : Image) (opts : Options) (v : Var) (text : CString) (o : Nat) : Prop :=
  opts v = some text ∧ place image v.field = some o

/-- A run does what it should: it accesses the mapping only, each field that is given holds
its string with the NUL, and no other byte is changed. -/
structure PatchesFields (image : Image) (opts : Options) (run : Run) : Prop where
  inside : Inside run.accesses
  holds : ∀ v text o, Given image opts v text o → text.chars.length < v.field.max ∧
    slice run.image (o + v.field.marker.length) v.field.max = v.field.content text
  frame : ∀ i, (∀ v text o, Given image opts v text o → ¬ v.field.Area o i) →
    run.image i = image i

/-! ### The fields filled in -/

/-- The order of the passes. -/
def order : List Var := [.cmdline, .machId, .atagAddr, .kernelAddr]

def Var.rank : Var → Nat
  | .cmdline => 0
  | .machId => 1
  | .atagAddr => 2
  | .kernelAddr => 3

def fill (image : Image) (field : Field) (text : CString) (o : Nat) : Image :=
  copy image (o + field.marker.length) (field.content text)

/-- The field of an option filled in, if it is given, where it is in the original image. -/
def fillGiven (orig : Image) (opts : Options) (image : Image) (v : Var) : Image :=
  match opts v, place orig v.field with
  | some text, some o => fill image v.field text o
  | _, _ => image

def filled (image : Image) (opts : Options) : Image := order.foldl (fillGiven image opts) image

/-- Only some of the options. -/
def Options.Among (part opts : Options) : Prop := ∀ v, part v = none ∨ part v = opts v

/-- No option from `v` on is given. -/
def Options.Before (opts : Options) (v : Var) : Prop := ∀ u, v.rank ≤ u.rank → opts u = none

/-- All strings given are shorter than their fields. -/
def Short (opts : Options) : Prop := ∀ v text, opts v = some text → text.chars.length < v.field.max

/-- Where fields overlap, they hold the same. -/
def Agree (image : Image) (opts : Options) : Prop :=
  ∀ u v s t a b i, Given image opts u s a → Given image opts v t b →
    u.field.Area a i → v.field.Area b i →
    (u.field.content s)[i - (a + u.field.marker.length)]? =
      (v.field.content t)[i - (b + v.field.marker.length)]?

/-- The strings fit into the image. -/
structure Fits (image : Image) (opts : Options) : Prop where
  short : Short opts
  agree : Agree image opts
  /-- With options before it filled in, a marker is found where it was, or where it makes no
  difference, and the field behind it ends inside of the mapping. -/
  found : ∀ part v text, part.Among opts → part.Before v → opts v = some text →
    ∃ o p, place image v.field = some o ∧ place (filled image part) v.field = some p ∧
      p + v.field.marker.length + v.field.max ≤ searchSpace ∧
      fill (filled image part) v.field text p = fill (filled image part) v.field text o

variable {image : Image} {opts part : Options} {v : Var} {text : CString}

theorem Field.content_length {field : Field} (h : text.chars.length < field.max) :
    (field.content text).length = field.max := by
  simp only [Field.content, List.length_append, List.length_replicate]
  omega

theorem Field.area_iff {field : Field} (h : text.chars.length < field.max) (o i : Nat) :
    field.Area o i ↔ o + field.marker.length ≤ i ∧
      i < o + field.marker.length + (field.content text).length := by
  rw [Field.content_length h, Field.Area]

/-- `memset` and `strcpy` of a string that is short enough. -/
theorem write_eq_fill {field : Field} (h : text.chars.length < field.max) (o : Nat) :
    write image (o + field.marker.length) field.max text = fill image field text o := by
  rw [write, copy_copy (by simp; omega), fill, Field.content]
  congr 1
  have hrest : field.max - text.chars.length = field.max - (text.chars.length + 1) + 1 := by omega
  simp [List.drop_replicate, hrest, List.replicate_succ]

/-! ### Options in turn -/

theorem Var.rank_injective {u v : Var} (h : u.rank = v.rank) : u = v := by
  cases u <;> cases v <;> first | rfl | cases h

/-- All options, when they are added in turn. -/
theorem Options.inTurn {motive : Options → Prop} (empty : motive fun _ => none)
    (add : ∀ part v text, part.Before v → motive part →
      motive (Function.update part v (some text)))
    (opts : Options) : motive opts := by
  let upTo (k : Nat) : Options := fun u => if u.rank < k then opts u else none
  have hadd : ∀ v : Var, motive (upTo v.rank) → motive (upTo (v.rank + 1)) := by
    intro v h
    have hother : ∀ u ≠ v, upTo (v.rank + 1) u = upTo v.rank u := by
      intro u hu
      have hrank : u.rank ≠ v.rank := fun he => hu (Var.rank_injective he)
      have hlt : u.rank < v.rank + 1 ↔ u.rank < v.rank := by omega
      simp only [upTo, hlt]
    have hself : upTo (v.rank + 1) v = opts v := if_pos (Nat.lt_succ_self _)
    have hbefore : (upTo v.rank).Before v := fun u hu => if_neg (by omega)
    cases hv : opts v with
    | none =>
      have hsame : upTo (v.rank + 1) = upTo v.rank := by
        funext u
        by_cases hu : u = v
        · rw [hu, hself, hv, hbefore v (Nat.le_refl _)]
        · exact hother u hu
      rwa [hsame]
    | some text =>
      have hnext : upTo (v.rank + 1) = Function.update (upTo v.rank) v (some text) := by
        funext u
        by_cases hu : u = v
        · rw [hu, hself, hv, Function.update_self]
        · rw [hother u hu, Function.update_of_ne hu]
      rw [hnext]
      exact add _ v text hbefore h
  have hall : upTo 4 = opts := by
    funext v
    cases v <;> rfl
  rw [← hall]
  exact hadd .kernelAddr (hadd .atagAddr (hadd .machId (hadd .cmdline empty)))

/-- Steps for the options in order, where the last option given is added. -/
theorem foldl_update {γ : Type} (step : Option CString → Var → γ → γ)
    (hnone : ∀ v s, step none v s = s) (h : part.Before v) (s : γ) :
    order.foldl (fun s u => step (Function.update part v (some text) u) u s) s =
      step (some text) v (order.foldl (fun s u => step (part u) u s) s) := by
  cases v <;> simp_all [order, Options.Before, Var.rank, Function.update]

theorem filled_update (h : part.Before v) : filled image (Function.update part v (some text)) =
    fillGiven image (fun _ => some text) (filled image part) v :=
  foldl_update (fun given u s => fillGiven image (fun _ => given) s u) (fun _ _ => rfl) h image

/-- The passes of `main`. -/
def passes (image : Image) (opts : Options) : Run :=
  order.foldl (fun run v => patch v.field (opts v) run)
    {image := image, accesses := [], stderr := []}

theorem main_eq (h : tooLong opts = false) : main image opts = (passes image opts, -1) := by
  simp only [main, h, Bool.false_eq_true, if_false]
  rfl

theorem passes_update (h : part.Before v) :
    passes image (Function.update part v (some text)) =
      patch v.field (some text) (passes image part) :=
  foldl_update (fun given u run => patch u.field given run) (fun _ _ => rfl) h _

theorem Options.Among.refl (opts : Options) : opts.Among opts := fun _ => .inr rfl

/-- With an option added in turn, that option and those before are among the options. -/
theorem Options.Among.of_update (h : part.Before v)
    (hamong : Options.Among (Function.update part v (some text)) opts) :
    part.Among opts ∧ opts v = some text := by
  constructor
  · intro u
    by_cases hu : u = v
    · exact .inl (h u (by rw [hu]))
    · have hpart := hamong u
      rwa [Function.update_of_ne hu] at hpart
  · obtain hv | hv := hamong v
    · cases (Function.update_self v (some text) part).symm.trans hv
    · rw [← hv, Function.update_self]

theorem Options.Among.update (h : part.Among opts) (hv : opts v = some text) :
    Options.Among (Function.update part v (some text)) opts := by
  intro u
  by_cases hu : u = v
  · subst hu
    exact .inr (by rw [Function.update_self, hv])
  · rw [Function.update_of_ne hu]
    exact h u

theorem Options.Among.of_before (h : part.Before v) :
    part.Among (Function.update part v (some text)) := by
  intro u
  by_cases hu : u = v
  · exact .inl (h u (by rw [hu]))
  · exact .inr (by rw [Function.update_of_ne hu])

theorem Options.Among.trans {sub : Options} (h : sub.Among part) (hpart : part.Among opts) :
    sub.Among opts := by
  intro u
  obtain hnone | hsame := h u
  · exact .inl hnone
  · rw [hsame]
    exact hpart u

theorem Options.Among.eq (h : part.Among opts) (hv : part v = some text) : opts v = some text := by
  obtain hnone | hsame := h v
  · cases hnone.symm.trans hv
  · rw [← hsame, hv]

theorem Given.mono {o : Nat} (h : Given image part v text o) (hpart : part.Among opts) :
    Given image opts v text o :=
  ⟨hpart.eq h.1, h.2⟩

/-! ### What stands in the filled image -/

theorem Given.update {o : Nat} {u : Var} {s : CString}
    (h : Given image (Function.update part v (some text)) u s o) :
    (u = v ∧ s = text ∧ place image v.field = some o) ∨ Given image part u s o := by
  by_cases hu : u = v
  · subst hu
    have hs := h.1
    rw [Function.update_self] at hs
    exact .inl ⟨rfl, (Option.some.inj hs).symm, h.2⟩
  · have hs := h.1
    rw [Function.update_of_ne hu] at hs
    exact .inr ⟨hs, h.2⟩

theorem fillGiven_eq {o : Nat} (h : place image v.field = some o) (cur : Image) :
    fillGiven image (fun _ => some text) cur v = fill cur v.field text o := by
  simp [fillGiven, h]

theorem Short.mono (h : Short opts) (hpart : part.Among opts) : Short part :=
  fun v text hv => h v text (hpart.eq hv)

theorem Agree.mono (h : Agree image opts) (hpart : part.Among opts) : Agree image part :=
  fun u v s t a b i hu hv => h u v s t a b i (hu.mono hpart) (hv.mono hpart)

/-- No byte outside of the fields is changed. -/
theorem filled_outside {i : Nat} (hshort : Short opts)
    (h : ∀ v text o, Given image opts v text o → ¬ v.field.Area o i) :
    filled image opts i = image i := by
  induction opts using Options.inTurn with
  | empty => rfl
  | add part v text hbefore ih =>
    have hsub : part.Among (Function.update part v (some text)) := Options.Among.of_before hbefore
    have hv : Function.update part v (some text) v = some text := Function.update_self ..
    have hpart := ih (hshort.mono hsub) fun u s o hu => h u s o (hu.mono hsub)
    rw [filled_update hbefore]
    cases hplace : place image v.field with
    | none => simpa [fillGiven, hplace] using hpart
    | some o =>
      rw [fillGiven_eq hplace, fill, copy_outside, hpart]
      rw [← Field.area_iff (hshort v text hv)]
      exact h v text o ⟨hv, hplace⟩

/-- A field holds its string, also where another has been filled in over it. -/
theorem filled_inside {o i : Nat} (hshort : Short opts) (hagree : Agree image opts)
    (h : Given image opts v text o) (hi : v.field.Area o i) :
    some (filled image opts i) =
      (v.field.content text)[i - (o + v.field.marker.length)]? := by
  induction opts using Options.inTurn with
  | empty => cases h.1
  | add part u s hbefore ih =>
    have hsub : part.Among (Function.update part u (some s)) := Options.Among.of_before hbefore
    have hu : Function.update part u (some s) u = some s := Function.update_self ..
    have hold : Given image part v text o → some (filled image part i) =
        (v.field.content text)[i - (o + v.field.marker.length)]? :=
      ih (hshort.mono hsub) (hagree.mono hsub)
    rw [filled_update hbefore]
    cases hplace : place image u.field with
    | none =>
      obtain ⟨rfl, rfl, hv⟩ | hv := h.update
      · cases hplace.symm.trans hv
      · simpa [fillGiven, hplace] using hold hv
    | some a =>
      rw [fillGiven_eq hplace, fill]
      by_cases ha : u.field.Area a i
      · rw [copy_inside ((Field.area_iff (hshort u s hu) a i).mp ha)]
        exact hagree u v s text a o i ⟨hu, hplace⟩ h ha hi
      · rw [copy_outside ((Field.area_iff (hshort u s hu) a i).not.mp ha)]
        obtain ⟨rfl, rfl, hv⟩ | hv := h.update
        · cases hplace.symm.trans hv
          exact absurd hi ha
        · exact hold hv

variable {run : Run}

theorem PatchesFields.short_of (h : PatchesFields image opts run) {o : Nat}
    (hv : Given image opts v text o) : text.chars.length < v.field.max := (h.holds v text o hv).1

/-- A byte of a field, when its string is held. -/
theorem PatchesFields.byte (h : PatchesFields image opts run) {o i : Nat}
    (hv : Given image opts v text o) (hi : v.field.Area o i) :
    some (run.image i) = (v.field.content text)[i - (o + v.field.marker.length)]? := by
  have hlo := hi.1
  have hhi := hi.2
  rw [← (h.holds v text o hv).2, slice_getElem? (by omega), Nat.add_sub_cancel' hlo]

theorem PatchesFields.agree (h : PatchesFields image opts run) : Agree image opts :=
  fun _ _ _ _ _ _ _ hu hv hiu hiv => (h.byte hu hiu).symm.trans (h.byte hv hiv)

/-- A run that does what it should leaves the fields filled in. -/
theorem PatchesFields.eq_filled (h : PatchesFields image opts run) (hshort : Short opts) :
    run.image = filled image opts := by
  funext i
  by_cases hin : ∃ v text o, Given image opts v text o ∧ v.field.Area o i
  · obtain ⟨v, text, o, hv, hi⟩ := hin
    apply Option.some.inj
    rw [h.byte hv hi, filled_inside hshort h.agree hv hi]
  · have hout : ∀ v text o, Given image opts v text o → ¬ v.field.Area o i :=
      fun v text o hv hi => hin ⟨v, text, o, hv, hi⟩
    rw [h.frame i hout, filled_outside hshort hout]

theorem PatchesFields.of_filled (hin : Inside run.accesses) (hrun : run.image = filled image opts)
    (hshort : Short opts) (hagree : Agree image opts) : PatchesFields image opts run where
  inside := hin
  holds v text o hv := by
    have hlen := hshort v text hv.1
    refine ⟨hlen, ?_⟩
    rw [hrun]
    refine List.ext_getElem? fun k => ?_
    by_cases hk : k < v.field.max
    · rw [slice_getElem? hk, filled_inside hshort hagree hv ⟨by omega, by omega⟩]
      congr 1
      omega
    · rw [List.getElem?_eq_none (by simp; omega),
        List.getElem?_eq_none (by rw [Field.content_length hlen]; omega)]
  frame i hout := by rw [hrun, filled_outside hshort hout]

/-! ### The passes -/

/-- A pass that finds its marker fills the field in there. -/
theorem patch_of_place {p : Nat} (h : place run.image v.field = some p)
    (hlen : text.chars.length < v.field.max)
    (hroom : p + v.field.marker.length + v.field.max ≤ searchSpace) (hin : Inside run.accesses) :
    (patch v.field (some text) run).image = fill run.image v.field text p ∧
      Inside (patch v.field (some text) run).accesses := by
  obtain ⟨hfound, hsearch⟩ := search_place h
  simp only [patch, hfound]
  refine ⟨write_eq_fill hlen p, ?_⟩
  intro a ha
  simp only [List.mem_append, List.mem_cons, List.not_mem_nil, or_false] at ha
  obtain (ha | ha) | rfl | rfl := ha
  · exact hin a ha
  · exact hsearch a ha
  · exact hroom
  · show p + v.field.marker.length + (text.chars.length + 1) ≤ searchSpace
    omega

/-- A pass that stays in the mapping finds its marker, and room behind it. -/
theorem place_of_patch (h : Inside (patch v.field (some text) run).accesses) :
    Inside run.accesses ∧ ∃ p, place run.image v.field = some p ∧
      p + v.field.marker.length + v.field.max ≤ searchSpace := by
  have hsearch : Inside (run.accesses ++ (search run.image v.field.marker 0).2) := by
    intro a ha
    apply h
    simp only [patch]
    split
    · exact List.mem_append_left _ ha
    · exact ha
  refine ⟨fun a ha => hsearch a (List.mem_append_left _ ha), ?_⟩
  obtain ⟨p, hp⟩ := inside_search fun a ha => hsearch a (List.mem_append_right _ ha)
  refine ⟨p, hp, ?_⟩
  apply h ⟨p + v.field.marker.length, v.field.max⟩
  simp [patch, (search_place hp).1]

/-- The passes fill in the fields, if the strings fit. -/
theorem passes_filled (h : Fits image opts) (hpart : part.Among opts) :
    (passes image part).image = filled image part ∧ Inside (passes image part).accesses := by
  induction part using Options.inTurn with
  | empty => exact ⟨rfl, fun _ ha => absurd ha List.not_mem_nil⟩
  | add part v text hbefore ih =>
    obtain ⟨hpart, hv⟩ := hpart.of_update hbefore
    obtain ⟨himage, hin⟩ := ih hpart
    obtain ⟨o, p, ho, hp, hroom, hsame⟩ := h.found part v text hpart hbefore hv
    rw [← himage] at hp
    have hpass := patch_of_place hp (h.short v text hv) hroom hin
    rw [passes_update hbefore]
    refine ⟨?_, hpass.2⟩
    rw [hpass.1, himage, hsame, filled_update hbefore, fillGiven_eq ho]

theorem Fits.not_tooLong (h : Fits image opts) : tooLong opts = false := by
  unfold tooLong
  split
  · rename_i text htext
    have hlen : text.chars.length < cmdlineMax := h.short .cmdline text htext
    exact decide_eq_false (by omega)
  · rfl

/-- With strings that fit, the tool does what it should. -/
theorem Fits.patchesFields (h : Fits image opts) :
    PatchesFields image opts (main image opts).1 := by
  obtain ⟨himage, hin⟩ := passes_filled h (Options.Among.refl opts)
  rw [main_eq h.not_tooLong]
  exact PatchesFields.of_filled hin himage h.short h.agree

theorem Fits.mono (h : Fits image opts) (hpart : part.Among opts) : Fits image part where
  short := h.short.mono hpart
  agree := h.agree.mono hpart
  found sub v text hsub hbefore hv := h.found sub v text (hsub.trans hpart) hbefore (hpart.eq hv)

theorem Options.Among.accepted (h : part.Among opts) (haccept : tooLong opts = false) :
    tooLong part = false := by
  obtain hnone | hsame := h .cmdline
  · simp [tooLong, hnone]
  · rwa [tooLong, hsame]

/-- The marker of an option given alone is found, and its string is short. -/
theorem given_of_patchesFields
    (h : ∀ part, part.Among opts → PatchesFields image part (passes image part))
    (hv : opts v = some text) :
    text.chars.length < v.field.max ∧ ∃ o, place image v.field = some o := by
  let alone : Options := Function.update (fun _ => none) v (some text)
  have hbefore : Options.Before (fun _ => none) v := fun _ _ => rfl
  have hempty : Options.Among (fun _ => none) opts := fun _ => .inl rfl
  have hp := h alone (hempty.update hv)
  have hin := hp.inside
  rw [show passes image alone = patch v.field (some text) (passes image fun _ => none) from
    passes_update hbefore] at hin
  obtain ⟨-, o, ho, -⟩ := place_of_patch hin
  have ho : place image v.field = some o := ho
  exact ⟨hp.short_of ⟨Function.update_self .., ho⟩, o, ho⟩

/-- **Only the fields.** For strings that are accepted, the tool does what it should with the
options, and with any part of them, if and only if the strings fit. -/
theorem main_patchesFields_iff (image : Image) (opts : Options) (haccept : tooLong opts = false) :
    (∀ part, part.Among opts → PatchesFields image part (main image part).1) ↔
      Fits image opts := by
  constructor
  · intro hmain
    have h : ∀ part, part.Among opts → PatchesFields image part (passes image part) := by
      intro part hpart
      have hpass := hmain part hpart
      rwa [main_eq (hpart.accepted haccept)] at hpass
    have hshort : Short opts := fun v text hv => (given_of_patchesFields h hv).1
    refine ⟨hshort, (h opts (Options.Among.refl opts)).agree, ?_⟩
    intro part v text hpart hbefore hv
    obtain ⟨-, o, ho⟩ := given_of_patchesFields h hv
    have himage := (h part hpart).eq_filled (hshort.mono hpart)
    have hnext := h _ (hpart.update hv)
    have hfilled := hnext.eq_filled (hshort.mono (hpart.update hv))
    have hin := hnext.inside
    rw [passes_update hbefore] at hfilled hin
    obtain ⟨hbeforeIn, p, hp, hroom⟩ := place_of_patch hin
    rw [(patch_of_place hp (hshort v text hv) hroom hbeforeIn).1, filled_update hbefore,
      fillGiven_eq ho, himage] at hfilled
    rw [himage] at hp
    exact ⟨o, p, ho, hp, hroom, hfilled⟩
  · exact fun h part hpart => (h.mono hpart).patchesFields

/-! ### Images with a command line -/

def sampleImage : Image := copy (fun _ => 0x41) 0 cmdlineField.marker

/-- A machine ID behind the command line. -/
def twoFields : Image := copy sampleImage 264 machIdField.marker

def sampleText (n : Nat) : CString := ⟨List.replicate n 0x78, by simp⟩

/-- A command line of `n` characters, and no other option. -/
def sampleOptions (n : Nat) : Options
  | .cmdline => some (sampleText n)
  | _ => none

/-- A command line and a machine ID. -/
def twoOptions : Options
  | .cmdline => some (sampleText 7)
  | .machId => some (sampleText 4)
  | _ => none

theorem sampleImage_place : place sampleImage cmdlineField = some 0 :=
  place_eq_some.mpr ⟨rfl, by decide, fun p hp => absurd hp (Nat.not_lt_zero p)⟩

theorem twoFields_cmdline : place twoFields cmdlineField = some 0 :=
  place_eq_some.mpr ⟨rfl, by decide, fun p hp => absurd hp (Nat.not_lt_zero p)⟩

/-- Where a marker stands is its first byte. -/
theorem Marked.first {field : Field} {o : Nat} (h : Marked image field o) :
    field.marker[0]? = some (image o) := by
  have hlong := field.marker_long
  rw [← h.2, slice_getElem? (by omega), Nat.add_zero]

/-- The marker is found behind a command line without its first byte. -/
theorem place_machId (hsame : ∀ i, ¬ (8 ≤ i ∧ i < 264) → image i = twoFields i)
    (hline : ∀ i, 8 ≤ i → i < 264 → image i ≠ 0x4d) : place image machIdField = some 264 := by
  refine place_eq_some.mpr ⟨rfl, ⟨by decide, ?_⟩, fun p hp hal hm => ?_⟩
  · rw [slice_congr fun i hlow _ => hsame i (by omega)]
    decide
  · have hfirst : some 0x4d = some (image p) := hm.first
    by_cases hin : 8 ≤ p
    · exact hline p hin hp (Option.some.inj hfirst).symm
    · rw [hsame p (by omega)] at hfirst
      obtain rfl | rfl : p = 0 ∨ p = 4 := by omega
      · exact absurd hfirst (by decide)
      · exact absurd hfirst (by decide)

theorem twoFields_machId : place twoFields machIdField = some 264 := by
  refine place_machId (fun _ _ => rfl) fun i hlow hhigh => ?_
  have hfill : twoFields i = 0x41 := by
    rw [twoFields, copy_outside fun h => by omega, sampleImage,
      copy_outside fun h => absurd h.2 (Nat.not_lt.mpr hlow)]
  rw [hfill]
  decide

/-- The command line filled in has no marker. -/
theorem twoFields_filled_machId :
    place (fill twoFields cmdlineField (sampleText 7) 0) machIdField = some 264 := by
  have hlen : (cmdlineField.content (sampleText 7)).length = 256 :=
    Field.content_length (by decide)
  refine place_machId (fun i hi => copy_outside (by rw [hlen]; exact hi)) fun i hlow hhigh => ?_
  have hbyte : some (fill twoFields cmdlineField (sampleText 7) 0 i) =
      (cmdlineField.content (sampleText 7))[i - 8]? :=
    copy_inside ⟨hlow, by rw [hlen]; exact hhigh⟩
  have hmem := List.mem_of_getElem? hbyte.symm
  intro hmarker
  rw [hmarker, Field.content, sampleText] at hmem
  simp only [List.mem_append, List.mem_replicate] at hmem
  exact absurd hmem (by decide)

theorem twoOptions_given {o : Nat} (h : Given twoFields twoOptions v text o) :
    v = .cmdline ∧ text = sampleText 7 ∧ o = 0 ∨ v = .machId ∧ text = sampleText 4 ∧ o = 264 := by
  obtain ⟨htext, ho⟩ := h
  cases v with
  | cmdline =>
    have hplace := Option.some.inj (ho.symm.trans twoFields_cmdline)
    exact .inl ⟨rfl, (Option.some.inj htext).symm, hplace⟩
  | machId =>
    have hplace := Option.some.inj (ho.symm.trans twoFields_machId)
    exact .inr ⟨rfl, (Option.some.inj htext).symm, hplace⟩
  | atagAddr | kernelAddr => cases htext

/-- What is filled in before the machine ID. -/
theorem twoFields_filled (hpart : part.Among twoOptions) (hbefore : part.Before .machId) :
    filled twoFields part = twoFields ∨
      filled twoFields part = fill twoFields cmdlineField (sampleText 7) 0 := by
  have hothers : ∀ u, u ≠ .cmdline → part u = none := by
    intro u hu
    cases u with
    | cmdline => exact absurd rfl hu
    | machId | atagAddr | kernelAddr => exact hbefore _ (by decide)
  rcases hpart .cmdline with hnone | hsome
  · have hempty : part = fun _ => none := by
      funext u
      by_cases hu : u = .cmdline
      · rw [hu, hnone]
      · exact hothers u hu
    rw [hempty]
    exact .inl rfl
  · have hline : part = Function.update (fun _ => none) .cmdline (some (sampleText 7)) := by
      funext u
      by_cases hu : u = .cmdline
      · subst hu
        exact hsome
      · rw [hothers u hu, Function.update_of_ne hu]
    rw [hline, filled_update fun _ _ => rfl, fillGiven_eq (v := .cmdline) twoFields_cmdline]
    exact .inr rfl

theorem two_fits : Fits twoFields twoOptions where
  short v text hv := by
    cases v with
    | cmdline | machId =>
      cases hv
      decide
    | atagAddr | kernelAddr => cases hv
  agree u v s t a b i hu hv hiu hiv := by
    obtain ⟨rfl, rfl, rfl⟩ | ⟨rfl, rfl, rfl⟩ := twoOptions_given hu <;>
      obtain ⟨rfl, rfl, rfl⟩ | ⟨rfl, rfl, rfl⟩ := twoOptions_given hv
    · rfl
    · -- the machine ID is behind the command line
      have hend : i < 264 := hiu.2
      have hstart : 271 ≤ i := hiv.1
      omega
    · have hstart : 271 ≤ i := hiu.1
      have hend : i < 264 := hiv.2
      omega
    · rfl
  found part v text hpart hbefore hv := by
    cases v with
    | cmdline =>
      have hnone : part = fun _ => none := by
        funext u
        exact hbefore u (Nat.zero_le _)
      subst hnone
      exact ⟨0, 0, twoFields_cmdline, twoFields_cmdline, by decide, rfl⟩
    | machId =>
      refine ⟨264, 264, twoFields_machId, ?_, by decide, rfl⟩
      rcases twoFields_filled hpart hbefore with hfilled | hfilled
      · rw [hfilled]
        exact twoFields_machId
      · rw [hfilled]
        exact twoFields_filled_machId
    | atagAddr | kernelAddr => cases hv

theorem main_patchesFields_two : tooLong twoOptions = false ∧
    PatchesFields twoFields twoOptions (main twoFields twoOptions).1 :=
  ⟨rfl, (main_patchesFields_iff twoFields twoOptions rfl).mpr two_fits _ (Options.Among.refl _)⟩

/-- A command line as long as its field is accepted, and its NUL goes behind the field. -/
theorem main_spills_256 : tooLong (sampleOptions 256) = false ∧
    ¬ cmdlineField.Area 0 264 ∧
    (main sampleImage (sampleOptions 256)).1.image 264 ≠ sampleImage 264 ∧
    ¬ PatchesFields sampleImage (sampleOptions 256) (main sampleImage (sampleOptions 256)).1 := by
  have hlen : (sampleText 256).chars.length = 256 := List.length_replicate ..
  have haccept : tooLong (sampleOptions 256) = false := by
    simp [tooLong, sampleOptions, hlen, cmdlineMax]
  have hfound := (search_place sampleImage_place).1
  have hspill : (main sampleImage (sampleOptions 256)).1.image 264 = 0 := by
    rw [main_eq haccept]
    show (patch cmdlineField (some (sampleText 256)) _).image
      (0 + cmdlineField.marker.length + 256) = 0
    simp only [patch, hfound, write]
    apply Option.some.inj
    rw [copy_inside (by simp [hlen]), Nat.add_sub_cancel_left,
      List.getElem?_append_right (by rw [hlen]), hlen]
    rfl
  refine ⟨haccept, fun h => absurd h.2 (by decide), ?_, ?_⟩
  · rw [hspill]
    decide
  · intro h
    have hgiven : Given sampleImage (sampleOptions 256) .cmdline (sampleText 256) 0 :=
      ⟨rfl, sampleImage_place⟩
    have hshort : (sampleText 256).chars.length < 256 := h.short_of hgiven
    omega

end Mflib.PatchQboot
