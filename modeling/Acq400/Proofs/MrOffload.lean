/-
What a client stores of a blob.

A blob has no marks in it, so every section has to have its length.  `cat` makes a file that is too
short longer, but copies all of one that is too long, and then all that is behind it is displaced.
So a blob is right if and only if no file is too long; and the client can store it as long as the
bytes of all the samples can be counted by an `int`.
-/
import Acq400.Lib.Strides
import Acq400.Stream.MrOffload
import Mathlib.Algebra.Order.BigOperators.Group.List
import Mathlib.Algebra.Order.Group.Nat

namespace Acq400

namespace MrOffload

/-! ### One section -/

/-- `len` bytes of a file, with zeros where it is too short. -/
def padded (file : List UInt8) (len : Nat) : List UInt8 :=
  file.take len ++ List.replicate (len - file.length) 0

theorem length_padded (file : List UInt8) (len : Nat) : (padded file len).length = len := by
  unfold padded
  rw [List.length_append, List.length_take, List.length_replicate]
  omega

theorem catLoop_eq {len : Nat} (hlen : 0 < len) (file : List UInt8) : catLoop len file = file := by
  induction hn : file.length using Nat.strong_induction_on generalizing file with
  | _ n ih =>
      rw [catLoop, List.length_take]
      split
      · rw [ih (file.drop len).length (by rw [List.length_drop]; omega) _ rfl,
          List.take_append_drop]
      · have hnil : file.length = 0 := by omega
        exact (List.length_eq_zero_iff.mp hnil).symm

theorem cat_eq {len : Nat} (hlen : 0 < len) (hint : len < 2 ^ 31) (file : List UInt8) :
    cat file len =
      file ++ List.replicate ((len : Int) - CInt.wrap file.length).toNat 0 := by
  unfold cat
  rw [CInt.unsigned_natCast (by omega), Int.toNat_natCast, catLoop_eq hlen]

/-- A file that is not too long is padded. -/
theorem cat_of_le {len : Nat} (hlen : 0 < len) (hint : len < 2 ^ 31) {file : List UInt8}
    (hfile : file.length ≤ len) : cat file len = padded file len := by
  rw [cat_eq hlen hint, CInt.wrap_natCast (by omega), padded, List.take_of_length_le hfile]
  congr 2
  omega

theorem le_length_cat {len : Nat} (hlen : 0 < len) (hint : len < 2 ^ 31) (file : List UInt8) :
    max file.length len ≤ (cat file len).length := by
  by_cases hfile : file.length ≤ len
  · rw [cat_of_le hlen hint hfile, length_padded]
    omega
  · rw [cat_eq hlen hint, List.length_append]
    omega

/-! ### One section behind the other -/

/-- A file, and the bytes that are to be sent of it. -/
abbrev Section := List UInt8 × Nat

theorem flatMap_cat_eq_iff (sections : List Section)
    (hint : ∀ s ∈ sections, 0 < s.2 ∧ s.2 < 2 ^ 31) :
    (sections.flatMap fun s => cat s.1 s.2) = (sections.flatMap fun s => padded s.1 s.2) ↔
      ∀ s ∈ sections, s.1.length ≤ s.2 := by
  induction sections with
  | nil =>
      rw [List.flatMap_nil, List.flatMap_nil]
      exact iff_of_true rfl fun _ h => absurd h List.not_mem_nil
  | cons s rest ih =>
      have hs := hint s List.mem_cons_self
      have hrest := fun t ht => hint t (List.mem_cons_of_mem s ht)
      rw [List.flatMap_cons, List.flatMap_cons, List.forall_mem_cons, ← ih hrest]
      by_cases hle : s.1.length ≤ s.2
      · rw [cat_of_le hs.1 hs.2 hle, List.append_cancel_left_eq]
        exact (and_iff_right hle).symm
      · -- what is behind it cannot be as much shorter
        refine iff_of_false (fun heq => ?_) fun h => hle h.1
        have hlonger : (rest.flatMap fun t => padded t.1 t.2).length ≤
            (rest.flatMap fun t => cat t.1 t.2).length := by
          rw [List.length_flatMap, List.length_flatMap]
          refine List.sum_le_sum fun t ht => ?_
          have := le_length_cat (hrest t ht).1 (hrest t ht).2 t.1
          rw [length_padded]
          omega
        have hlen := congrArg List.length heq
        have hcat := le_length_cat hs.1 hs.2 s.1
        rw [List.length_append, List.length_append, length_padded] at hlen
        omega

/-! ### The blob -/

variable {box : Box}

/-- The file of a channel, which are counted from 0. -/
def Box.channel (box : Box) (c : Nat) : List UInt8 := box.data (c / 8 + 1) (c % 8 + 1)

/-- The sections of a blob. -/
def sections (box : Box) : List Section :=
  (box.decims, box.nsam) :: (List.range nchan).map fun c => (box.channel c, 2 * box.nsam)

theorem forall_sections {P : Section → Prop} : (∀ s ∈ sections box, P s) ↔
    P (box.decims, box.nsam) ∧ ∀ c < nchan, P (box.channel c, 2 * box.nsam) := by
  unfold sections
  simp only [List.forall_mem_cons, List.forall_mem_map, List.mem_range]

/-- Eight channels for each of six sites. -/
theorem flatMap_sites {α : Type} (f : Nat → Nat → List α) :
    ((List.range (nchan / 8)).flatMap fun site => (List.range 8).flatMap fun ch =>
      f (site + 1) (ch + 1)) = (List.range nchan).flatMap fun c => f (c / 8 + 1) (c % 8 + 1) := by
  have hpairs : ((List.range (nchan / 8)).flatMap fun site =>
      (List.range 8).map fun ch => (site + 1, ch + 1)) =
        (List.range nchan).map fun c => (c / 8 + 1, c % 8 + 1) := by decide
  have hflat := congrArg (List.flatMap fun p : Nat × Nat => f p.1 p.2) hpairs
  rw [List.flatMap_assoc, List.flatMap_map] at hflat
  simp only [List.flatMap_map] at hflat
  exact hflat

theorem offload_eq (hsmall : box.nsam < 2 ^ 29) : offload box =
    some { header := offloadHeader box, body := (sections box).flatMap fun s => cat s.1 s.2 } := by
  have halloc : Allocates (4 * box.nsam) := by
    unfold Allocates
    omega
  have hlen : CInt.wrap (box.nsam * 2 : Nat) = ((2 * box.nsam : Nat) : Int) := by
    rw [Nat.mul_comm, CInt.wrap_natCast (by omega)]
  unfold offload sections
  rw [if_pos halloc, hlen, List.flatMap_cons, List.flatMap_map,
    flatMap_sites fun site ch => cat (box.data site ch) ((2 * box.nsam : Nat) : Int)]
  rfl

/-- What is to be behind the header. -/
def wanted (box : Box) : List UInt8 := (sections box).flatMap fun s => padded s.1 s.2

/-- No file is too long. -/
def FilesFit (box : Box) : Prop :=
  box.decims.length ≤ box.nsam ∧ ∀ c < nchan, (box.channel c).length ≤ 2 * box.nsam

theorem body_eq_wanted_iff (hpos : 0 < box.nsam) (hsmall : box.nsam < 2 ^ 29) :
    ((sections box).flatMap fun s => cat s.1 s.2) = wanted box ↔ FilesFit box := by
  unfold wanted
  rw [flatMap_cat_eq_iff, forall_sections]
  · rfl
  · rw [forall_sections]
    exact ⟨⟨hpos, by omega⟩, fun _ _ => ⟨by omega, by omega⟩⟩

/-! ### The client -/

theorem fread_of_le (heap : Nat → UInt8) {len : Nat} {stream : List UInt8}
    (hlen : len ≤ stream.length) : fread heap len stream = (stream.take len, stream.drop len) := by
  unfold fread
  refine Prod.ext (List.ext_getElem? fun i => ?_) rfl
  rw [List.getElem?_map, List.getElem?_take]
  by_cases hi : i < len
  · rw [List.getElem?_range hi, if_pos hi, Option.map_some, List.getD_eq_getElem?_getD,
      List.getElem?_eq_getElem (by omega), Option.getD_some]
  · rw [List.getElem?_eq_none (by rw [List.length_range]; omega), if_neg hi, Option.map_none]

/-- The files of the channels one behind the other. -/
def channels (box : Box) : List UInt8 :=
  (List.range nchan).flatMap fun c => padded (box.channel c) (2 * box.nsam)

theorem wanted_eq : wanted box = padded box.decims box.nsam ++ channels box := by
  unfold wanted sections channels
  rw [List.flatMap_cons, List.flatMap_map]

theorem length_channels (box : Box) : (channels box).length = nchan * (2 * box.nsam) := by
  unfold channels
  rw [List.length_flatMap]
  simp [length_padded]

theorem nsam_eq (box : Box) : (offloadHeader box).nsam = (box.nsam : Int) := rfl

theorem nchan_mul (box : Box) :
    (offloadHeader box).nchan * (box.nsam : Int) = ((48 * box.nsam : Nat) : Int) := by
  show ((48 : Nat) : Int) * (box.nsam : Int) = _
  exact (Int.natCast_mul _ _).symm

theorem client_eq (heap : Nat → UInt8) (header : Header) (body : List UInt8) :
    client heap { header := header, body := body } =
      (writebin (fread heap header.nsam.toNat body).1 header.nsam).bind fun dec =>
        (CInt.value (header.nchan * header.nsam)).bind fun len =>
          (writebin (fread heap (2 * len).toNat (fread heap header.nsam.toNat body).2).1
            (CInt.wrap (2 * len))).map fun dat => { hdr := header, dec := dec, dat := dat } := by
  unfold client
  simp only [Option.bind_eq_bind, Option.map_eq_bind]
  rfl

/-- Where the bytes are counted by an `int` the client stores the two parts of the blob. -/
theorem client_wanted (hint : 96 * box.nsam < 2 ^ 31) (heap : Nat → UInt8) :
    client heap { header := offloadHeader box, body := wanted box } =
      some
        { hdr := offloadHeader box, dec := padded box.decims box.nsam, dat := channels box } := by
  have hdec := length_padded box.decims box.nsam
  have hdat := length_channels box
  have hnchan : nchan = 48 := rfl
  rw [hnchan] at hdat
  have hfirst : fread heap box.nsam (wanted box) = (padded box.decims box.nsam, channels box) := by
    rw [wanted_eq, fread_of_le heap (by rw [List.length_append]; omega),
      List.take_left' hdec, List.drop_left' hdec]
  have hsecond : fread heap (96 * box.nsam) (channels box) = (channels box, []) := by
    rw [fread_of_le heap (by omega), List.take_of_length_le (by omega),
      List.drop_of_length_le (by omega)]
  have hbytes : 2 * ((48 * box.nsam : Nat) : Int) = ((96 * box.nsam : Nat) : Int) := by omega
  have hwrite : ∀ {data : List UInt8} {len : Nat}, data.length = len →
      writebin data len = some data := by
    intro data len hlen
    unfold writebin
    rw [if_neg (by omega), Int.toNat_natCast, List.take_of_length_le (by omega)]
  have hlen : CInt.value ((offloadHeader box).nchan * (box.nsam : Int)) =
      some ((48 * box.nsam : Nat) : Int) := by
    rw [nchan_mul, CInt.value_natCast (by omega)]
  rw [client_eq, nsam_eq, Int.toNat_natCast, hfirst, hwrite hdec, Option.bind_some, hlen,
    Option.bind_some, hbytes, Int.toNat_natCast, hsecond, CInt.wrap_natCast hint,
    hwrite (show (channels box).length = 96 * box.nsam by omega), Option.map_some]

/-- Where they are not it stores nothing. -/
theorem client_none (hint : 2 ^ 31 ≤ 96 * box.nsam) (heap : Nat → UInt8) (body : List UInt8) :
    client heap { header := offloadHeader box, body := body } = none := by
  rw [client_eq, nsam_eq, nchan_mul]
  refine Option.bind_eq_none_iff.mpr fun dec _ => ?_
  by_cases hlen : 48 * box.nsam < 2 ^ 31
  · have hneg : CInt.wrap (2 * ((48 * box.nsam : Nat) : Int)) < 0 := by
      have hmod : (2 * ((48 * box.nsam : Nat) : Int)) % 4294967296 =
          2 * ((48 * box.nsam : Nat) : Int) := Int.emod_eq_of_lt (by omega) (by omega)
      unfold CInt.wrap
      rw [Int.bmod_def]
      split
      · omega
      · omega
    rw [CInt.value_natCast hlen, Option.bind_some, writebin, if_pos hneg, Option.map_none]
  · rw [CInt.value_natCast_none (by omega), Option.bind_none]

theorem header_of_offload {header : Header} {body : List UInt8}
    (h : offload box = some { header := header, body := body }) : header = offloadHeader box := by
  unfold offload at h
  split at h
  · exact (Blob.mk.inj (Option.some.inj h)).1.symm
  · cases h

/-! ### What is right -/

/-- The blob has a section of its length for every file, and a client finds them there. -/
def Right (box : Box) : Prop :=
  ∃ blob, offload box = some blob ∧ blob.body = wanted box ∧ ∀ heap, ∃ stored,
    client heap blob = some stored ∧ stored.dec = padded box.decims box.nsam ∧
      stored.dat.length = 2 * (nchan * box.nsam) ∧ ∀ c < nchan,
        (stored.dat.drop (2 * (c * box.nsam))).take (2 * box.nsam) =
          padded (box.channel c) (2 * box.nsam)

theorem right_of_fits (hpos : 0 < box.nsam) (hint : 96 * box.nsam < 2 ^ 31)
    (hfits : FilesFit box) : Right box := by
  have hsmall : box.nsam < 2 ^ 29 := by omega
  refine ⟨_, offload_eq hsmall, (body_eq_wanted_iff hpos hsmall).mpr hfits, fun heap => ?_⟩
  rw [(body_eq_wanted_iff hpos hsmall).mpr hfits]
  refine ⟨_, client_wanted hint heap, rfl, ?_, fun c hc => ?_⟩
  · rw [length_channels]
    exact Nat.mul_left_comm _ _ _
  · rw [Nat.mul_left_comm]
    exact Strides.chunk_flatMap (fun i _ => length_padded _ _) hc

/--
**A blob is right if and only if no file is too long and the client can count its bytes.**
-/
theorem offload_right_iff (hpos : 0 < box.nsam) :
    Right box ↔ FilesFit box ∧ 96 * box.nsam < 2 ^ 31 := by
  constructor
  · rintro ⟨blob, hblob, hbody, hclient⟩
    have hint : 96 * box.nsam < 2 ^ 31 := by
      by_contra hlarge
      obtain ⟨header, body⟩ := blob
      obtain ⟨stored, hstored, -⟩ := hclient fun _ => 0
      rw [header_of_offload hblob, client_none (by omega)] at hstored
      cases hstored
    have hsmall : box.nsam < 2 ^ 29 := by omega
    rw [offload_eq hsmall] at hblob
    obtain rfl := Option.some.inj hblob
    exact ⟨(body_eq_wanted_iff hpos hsmall).mp hbody, hint⟩
  · exact fun h => right_of_fits hpos h.2 h.1

/-- Three samples of each channel, of which the even channels have files of two. -/
def threeSamples : Box where
  shot := 1
  wrTaiTrg := 5
  nsam := 3
  calblob := none
  decims := [1, 2, 4]
  data := fun site ch =>
    (List.range (if ch % 2 = 1 then 6 else 4)).map fun i => UInt8.ofNat (16 * site + ch + i)

theorem threeSamples_right : Right threeSamples :=
  (offload_right_iff (by decide)).mpr ⟨⟨by decide, by decide⟩, by decide⟩

/-- One sample of each channel, and a file for the first channel that has `extra` bytes more. -/
def oneSample (extra : Nat) : Box where
  shot := 1
  wrTaiTrg := 0
  nsam := 1
  calblob := none
  decims := [1]
  data := fun site ch => if site = 1 ∧ ch = 1 then List.replicate (2 + extra) 7 else []

/-- Two bytes more displace all the other channels. -/
theorem too_long_not_right : ¬Right (oneSample 2) := by
  rintro ⟨blob, hblob, hbody, -⟩
  rw [offload_eq (by decide)] at hblob
  obtain rfl := Option.some.inj hblob
  have hfits : FilesFit (oneSample 2) := (body_eq_wanted_iff (by decide) (by decide)).mp hbody
  exact absurd (hfits.2 0 (by decide)) (by decide)

end MrOffload

end Acq400
