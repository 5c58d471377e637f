import Mflib.Lib.Cells

/-! The image patcher `patch_qboot`.

The image is mapped, and for each option given a pass looks for the marker of a field and
writes the string behind it. All passes are one: `patch`, with the values of a field. The
run keeps a history of its accesses; `inside_search` says that a search stays in the mapping
only if it finds the marker there. -/
namespace Mflib.PatchQboot
open Cells

abbrev Byte := BitVec 8

def searchSpace : Nat := 16 * 1024
def cmdlineMax : Nat := 256
def machidMax : Nat := 16
def atagAddrMax : Nat := 16
def kernelAddrMax : Nat := 16

/-- Memory from `ptr` on. The first `searchSpace` bytes are the mapping. -/
abbrev Image := Nat → Byte

/-- A string of the command line. -/
structure CString where
  chars : List Byte
  nonzero : 0 ∉ chars

/-- The bytes of a string literal. -/
def bytes (s : String) : List Byte := s.toList.map fun c => BitVec.ofNat 8 c.toNat

structure Field where
  marker : List Byte
  max : Nat
  /-- What is printed when there is no marker. -/
  missing : String
  /-- A marker has more bytes than the search moves on. -/
  marker_long : 4 < marker.length

def cmdlineField : Field where
  marker := bytes "CMDLINE:"
  max := cmdlineMax
  missing := "Command line marker not found!\n"
  marker_long := by decide

def machIdField : Field where
  marker := bytes "MACHID:"
  max := machidMax
  missing := "Machine ID marker not found!\n"
  marker_long := by decide

def atagAddrField : Field where
  marker := bytes "ATAGADDR:"
  max := atagAddrMax
  missing := "ATAG Address marker not found!\n"
  marker_long := by decide

def kernelAddrField : Field where
  marker := bytes "KERNELADDR:"
  max := kernelAddrMax
  missing := "Kernel Address marker not found!\n"
  marker_long := by decide

/-- The variables that hold the arguments of the options. -/
inductive Var where
  | cmdline
  | machId
  | atagAddr
  | kernelAddr
deriving DecidableEq

def Var.field : Var → Field
  | .cmdline => cmdlineField
  | .machId => machIdField
  | .atagAddr => atagAddrField
  | .kernelAddr => kernelAddrField

/-- What the variables hold, where an option was given. -/
abbrev Options := Var → Option CString

/-- Bytes that are read or written. -/
structure Access where
  start : Nat
  length : Nat
deriving DecidableEq

structure Run where
  image : Image
  accesses : List Access
  stderr : List String

/-- The search from `p` on: the byte behind the marker, and what `memcmp` reads. -/
def search (image : Image) (marker : List Byte) (p : Nat) : Option Nat × List Access :=
  if _ : p < searchSpace then
    if slice image p marker.length = marker then
      (some (p + marker.length), [⟨p, marker.length⟩])
    else
      let rest := search image marker (p + 4)
      (rest.1, ⟨p, marker.length⟩ :: rest.2)
  else (none, [])
termination_by searchSpace - p

/-- `memset` and `strcpy` -/
def write (image : Image) (p max : Nat) (text : CString) : Image :=
  copy (copy image p (List.replicate max 0)) p (text.chars ++ [0])

/-- The pass for a field. -/
def patch (field : Field) (text : Option CString) (run : Run) : Run :=
  match text with
  | none => run
  | some text =>
    let found := search run.image field.marker 0
    match found.1 with
    | some p =>
      {run with
        image := write run.image p field.max text
        accesses := run.accesses ++ found.2 ++ [⟨p, field.max⟩, ⟨p, text.chars.length + 1⟩]}
    | none =>
      {run with
        accesses := run.accesses ++ found.2
        stderr := run.stderr ++ [field.missing]}

def patchCmdline : Option CString → Run → Run := patch cmdlineField
def patchMachId : Option CString → Run → Run := patch machIdField
def patchAtagAddr : Option CString → Run → Run := patch atagAddrField
def patchKernelAddr : Option CString → Run → Run := patch kernelAddrField

/-- The command line is refused. -/
def tooLong (opts : Options) : Bool := match opts .cmdline with
  | some text => cmdlineMax < text.chars.length
  | none => false

/-- `main`, for an image that is there: the run and `ret`. -/
def main (image : Image) (opts : Options) : Run × Int :=
  let run : Run := {image := image, accesses := [], stderr := []}
  if tooLong opts then ({run with stderr := ["Command line string too long\n"]}, -1)
  else
    let run := patchCmdline (opts .cmdline) run
    let run := patchMachId (opts .machId) run
    let run := patchAtagAddr (opts .atagAddr) run
    let run := patchKernelAddr (opts .kernelAddr) run
    (run, -1)

/-! ### Where a field is -/

/-- The marker of a field stands there. -/
def Marked (image : Image) (field : Field) (o : Nat) : Prop :=
  o + field.marker.length ≤ searchSpace ∧ slice image o field.marker.length = field.marker

instance (image : Image) (field : Field) (o : Nat) : Decidable (Marked image field o) :=
  inferInstanceAs (Decidable (_ ∧ _))

/-- The first word of the image at which a field's marker stands. -/
def place (image : Image) (field : Field) : Option Nat :=
  ((List.range (searchSpace / 4)).find? fun w => Marked image field (4 * w)).map (4 * ·)

/-- All accesses are to the mapping. -/
def Inside (accesses : List Access) : Prop :=
  ∀ a ∈ accesses, a.start + a.length ≤ searchSpace

variable {image : Image} {field : Field}

theorem place_eq_some {o : Nat} : place image field = some o ↔
    o % 4 = 0 ∧ Marked image field o ∧ ∀ p < o, p % 4 = 0 → ¬ Marked image field p := by
  simp only [place, Option.map_eq_some_iff, List.find?_range_eq_some, List.mem_range,
    decide_eq_true_eq, Bool.not_eq_true', decide_eq_false_iff_not]
  constructor
  · rintro ⟨w, ⟨hm, -, hfirst⟩, rfl⟩
    refine ⟨by omega, hm, fun p hp hal => ?_⟩
    have hword := hfirst (p / 4) (by omega)
    rwa [Nat.mul_div_cancel' (Nat.dvd_of_mod_eq_zero hal)] at hword
  · rintro ⟨hal, hm, hfirst⟩
    have hword : 4 * (o / 4) = o := Nat.mul_div_cancel' (Nat.dvd_of_mod_eq_zero hal)
    have hlong := field.marker_long
    have hroom := hm.1
    refine ⟨o / 4, ⟨by rwa [hword], by unfold searchSpace at *; omega, fun j hj => ?_⟩, hword⟩
    exact hfirst (4 * j) (by omega) (by omega)

/-- The search stops at the place of the field. -/
theorem search_place {o : Nat} (h : place image field = some o) :
    (search image field.marker 0).1 = some (o + field.marker.length) ∧
      Inside (search image field.marker 0).2 := by
  obtain ⟨hal, hm, hfirst⟩ := place_eq_some.mp h
  suffices hfrom : ∀ p ≤ o, p % 4 = 0 →
      (search image field.marker p).1 = some (o + field.marker.length) ∧
        Inside (search image field.marker p).2 from hfrom 0 (Nat.zero_le o) rfl
  intro p hp hpal
  induction p using search.induct image field.marker with
  | case1 p hspace hfound =>
    have hroom : p + field.marker.length ≤ searchSpace := by have := hm.1; omega
    have hpo : p = o := by
      by_contra hne
      exact hfirst p (by omega) hpal ⟨hroom, hfound⟩
    subst hpo
    rw [search, dif_pos hspace, if_pos hfound]
    exact ⟨rfl, by simpa [Inside] using hroom⟩
  | case2 p hspace hfound ih =>
    have hpo : p ≠ o := fun he => hfound (he ▸ hm.2)
    have hnext := ih (by omega) (by omega)
    rw [search, dif_pos hspace, if_neg hfound]
    refine ⟨hnext.1, ?_⟩
    intro a ha
    rcases List.mem_cons.mp ha with rfl | ha
    · have := hm.1
      show p + field.marker.length ≤ searchSpace
      omega
    · exact hnext.2 a ha
  | case3 p hspace =>
    have := hm.1
    have := field.marker_long
    omega

/-- **A search in the mapping.** Unless the marker is found, the last compare passes the end. -/
theorem inside_search (h : Inside (search image field.marker 0).2) :
    ∃ o, place image field = some o := by
  suffices hfrom : ∀ p, p % 4 = 0 → p < searchSpace →
      (∀ q < p, q % 4 = 0 → ¬ Marked image field q) →
      Inside (search image field.marker p).2 → ∃ o, place image field = some o from
    hfrom 0 rfl (by decide) (fun q hq => absurd hq (Nat.not_lt_zero q)) h
  intro p hpal hspace hbefore hin
  induction p using search.induct image field.marker with
  | case1 p _ hfound =>
    rw [search, dif_pos hspace, if_pos hfound] at hin
    have hroom := hin _ (List.mem_singleton_self _)
    exact ⟨p, place_eq_some.mpr ⟨hpal, ⟨hroom, hfound⟩, hbefore⟩⟩
  | case2 p _ hfound ih =>
    rw [search, dif_pos hspace, if_neg hfound] at hin
    have hroom : p + field.marker.length ≤ searchSpace := hin _ List.mem_cons_self
    have hlong := field.marker_long
    apply ih (by omega) (by omega)
    · intro q hq hqal hm
      by_cases hqp : q = p
      · exact hfound (hqp ▸ hm.2)
      · exact hbefore q (by omega) hqal hm
    · exact fun a ha => hin a (List.mem_cons_of_mem _ ha)
  | case3 p hout => exact absurd hspace hout

end Mflib.PatchQboot
