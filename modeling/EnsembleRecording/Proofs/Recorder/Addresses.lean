import EnsembleRecording.Proofs.Layout.Extent
import EnsembleRecording.Proofs.Recorder.Offsets
import Mathlib.Tactic.Ring

/-!
# Addresses of a Recorder

A recorder reports where its data begin and where the next element goes.  A core finds both from its
offsets with arithmetic of 32 bits, and each step of it fails where the result does not fit.  On a
region that a layout has placed none ever does: there is an address behind the region, and no offset
of a recorder leads further than there, not even that of the next element when there is no room for
one.
-/

namespace EnsembleRecording

namespace Address

theorem eq_of_toNat_eq {address other : Address}
    (h : address.value.toNat = other.value.toNat) : address = other :=
  congrArg Address.mk (UInt32.toNat_inj.1 h)

theorem IsAligned.of_toNat_eq {address target : Address} {words : Nat} (h : address.IsAligned)
    (htarget : target.value.toNat = address.value.toNat + wordBytes * words) :
    target.IsAligned := by
  rw [IsAligned, htarget, Nat.add_mul_mod_self_left]
  exact h

end Address

namespace Region

/-- The byte behind the last one of the region has an address. -/
def HasEnd (region : Region) : Prop :=
  region.address.value.toNat + Address.wordBytes * region.size < Address.spaceBytes

theorem HasEnd.exists_addressOf?_eq_some {region : Region} (h : region.HasEnd) {offset : Nat}
    (hoffset : offset ≤ region.size) :
    ∃ target, region.addressOf? offset = some target ∧
      target.value.toNat = region.address.value.toNat + Address.wordBytes * offset ∧
      target.IsAligned := by
  have hfits : region.address.value.toNat + Address.wordBytes * offset < Address.spaceBytes :=
    Nat.lt_of_le_of_lt (Nat.add_le_add_left (Nat.mul_le_mul_left _ hoffset) _) h
  have hsome : region.addressOf? offset ≠ none := by
    intro hnone
    exact absurd (Address.offset?_eq_none_iff.1 hnone) (Nat.not_le_of_lt hfits)
  obtain ⟨target, htarget⟩ := Option.ne_none_iff_exists'.1 hsome
  have hvalue := Address.offset?_eq_some_iff.1 htarget
  exact ⟨target, htarget, hvalue, region.aligned.of_toNat_eq hvalue⟩

end Region

/-- A layout places a region only where there is an address behind it. -/
theorem Layout.hasEnd_of_region_eq_ok {layout : Layout} {address : Address} {neurons : Nat}
    {image : Region} (h : layout.region address neurons = .ok image) : image.HasEnd := by
  obtain ⟨haddress, himage⟩ := isImage_of_region_eq_ok h
  by_cases hend : layout.HasEndAt address neurons
  · obtain ⟨size, hsize, hfits⟩ := hend
    obtain rfl := Option.some.inj (hsize.symm.trans himage.size?_eq)
    rwa [Region.HasEnd, haddress]
  · cases (region_eq_shapeTooLarge hend).symm.trans h

namespace Recorder

theorem SameSetup.hasEnd {before after : Recorder} (h : SameSetup before after)
    (hend : before.region.HasEnd) : after.region.HasEnd := by
  rwa [Region.HasEnd, h.address_eq, h.size_eq]

section

variable {recorder : Recorder} (hsize : recorder.region.size ≠ 0)

include hsize

/-- The region is made up of the flag, the elements recorded and the room for more. -/
theorem region_size_eq :
    recorder.region.size = Region.dataOffset + recorder.cursor + recorder.remaining := by
  have hcursor := recorder.cursor_le_capacity
  unfold remaining
  unfold Region.capacity Region.dataOffset Region.flagOffset at *
  omega

theorem elementAddress?_eq (index : Nat) :
    recorder.elementAddress? index = recorder.region.addressOf? (Region.dataOffset + index) := by
  have hwords : recorder.region.isEmpty = false := by
    rw [Region.isEmpty, Array.isEmpty]
    exact decide_eq_false hsize
  rw [elementAddress?, hwords, if_neg Bool.false_ne_true]

/-- The element behind the last one has an address as well, that of the byte behind the region. -/
theorem exists_elementAddress?_eq_some (hend : recorder.region.HasEnd) {index : Nat}
    (hindex : index ≤ recorder.region.capacity) :
    ∃ target, recorder.elementAddress? index = some target ∧
      target.value.toNat = recorder.region.address.value.toNat + Address.wordBytes +
        Address.wordBytes * index ∧ target.IsAligned := by
  have hoffset : Region.dataOffset + index ≤ recorder.region.size := by
    unfold Region.capacity Region.dataOffset Region.flagOffset at *
    omega
  obtain ⟨target, htarget, hvalue, haligned⟩ := hend.exists_addressOf?_eq_some hoffset
  refine ⟨target, (elementAddress?_eq hsize index).trans htarget, ?_, haligned⟩
  rw [hvalue, Nat.mul_add, ← Nat.add_assoc]
  rfl

/-- As many words behind the next element as there is room for, the region ends. -/
theorem offset?_cursor_remaining {cursor behind : Address}
    (hcursor : cursor.value.toNat = recorder.region.address.value.toNat + Address.wordBytes +
      Address.wordBytes * recorder.cursor)
    (hbehind : behind.value.toNat =
      recorder.region.address.value.toNat + Address.wordBytes * recorder.region.size) :
    cursor.offset? recorder.remaining = some behind := by
  apply Address.offset?_eq_some_iff.2
  calc behind.value.toNat
      = recorder.region.address.value.toNat +
          Address.wordBytes * (Region.dataOffset + recorder.cursor + recorder.remaining) := by
        rw [hbehind, region_size_eq hsize]
    _ = recorder.region.address.value.toNat + Address.wordBytes * Region.dataOffset +
          Address.wordBytes * recorder.cursor + Address.wordBytes * recorder.remaining := by ring
    _ = cursor.value.toNat + Address.wordBytes * recorder.remaining := by
        rw [hcursor]
        rfl

end

end Recorder

namespace WordRecorder

variable {words : WordRecorder} {recorder : Recorder}

theorem Tracks.addressAt?_eq (h : words.Tracks recorder) (index : Nat) :
    words.addressAt? (words.base + index) = recorder.elementAddress? index := by
  unfold addressAt? Recorder.elementAddress?
  rw [h.region_eq]
  split
  · rfl
  · next hwords =>
    have hbase : words.base = Region.dataOffset := by
      have hsize : recorder.region.size ≠ 0 := by
        intro hnone
        exact hwords (decide_eq_true hnone)
      have hcapacity := h.size_eq
      unfold Region.capacity Region.dataOffset Region.flagOffset at *
      omega
    rw [hbase]

theorem Tracks.dataAddress?_eq (h : words.Tracks recorder) :
    words.dataAddress? = recorder.dataAddress? :=
  h.addressAt?_eq 0

theorem Tracks.cursorAddress?_eq (h : words.Tracks recorder) :
    words.cursorAddress? = recorder.cursorAddress? := by
  rw [cursorAddress?, h.next_eq, h.addressAt?_eq, Recorder.cursorAddress?]

end WordRecorder

namespace Recorder

/-- On a region that a layout has placed the reported addresses are exact, whatever was recorded,
refused and reset before, and a core computes them without leaving 32 bits.  The data begin one word
behind the address of the region, the next element goes behind all elements recorded, and as many
words further as there is room is the address behind the last word. -/
theorem addresses_are_exact_in_every_state {layout : Layout} {address : Address} {neurons : Nat}
    {image : Region} (himage : layout.region address neurons = .ok image)
    (expectedDims : Option Nat) (calls : List Call) :
    ∃ recorder words last, attach (some image) expectedDims = .ok recorder ∧
      WordRecorder.attach (some image) expectedDims = .ok words ∧
      words.run? calls = some ((recorder.run calls).1, last) ∧
      let left := (recorder.run calls).2
      let start := image.address.value.toNat
      ∃ data cursor behind : Address,
        (left.dataAddress? = some data ∧ last.dataAddress? = some data ∧
          data.value.toNat = start + Address.wordBytes) ∧
        (left.cursorAddress? = some cursor ∧ last.cursorAddress? = some cursor ∧
          cursor.value.toNat =
            start + Address.wordBytes + Address.wordBytes * left.cursor ∧ cursor.IsAligned) ∧
        image.addressOf? image.size = some behind ∧ cursor.offset? left.remaining = some behind ∧
          behind.value.toNat = start + Address.wordBytes * image.size := by
  obtain ⟨-, hbuilt⟩ := Layout.isImage_of_region_eq_ok himage
  obtain ⟨recorder, hattach, rfl⟩ :
      ∃ recorder, attach (some image) expectedDims = .ok recorder ∧ recorder.region = image :=
    ⟨_, attach_eq_ok expectedDims hbuilt.flag_eq, rfl⟩
  obtain ⟨words, hwords, htracks⟩ := WordRecorder.exists_attach_eq_ok hattach
  obtain ⟨last, hrun, hlast⟩ := htracks.exists_run?_eq_some calls
  refine ⟨recorder, words, last, hattach, hwords, hrun, ?_⟩
  intro left start
  have hsetup : SameSetup recorder left := sameSetup_run recorder calls
  have hend := hsetup.hasEnd (Layout.hasEnd_of_region_eq_ok himage)
  have hsize : left.region.size ≠ 0 := by
    rw [hsetup.size_eq]
    exact Region.size_ne_zero_of_flag hbuilt.flag_eq
  have hstart : left.region.address.value.toNat = start := by rw [hsetup.address_eq]
  obtain ⟨data, hdata, hdataValue, -⟩ :=
    exists_elementAddress?_eq_some hsize hend (Nat.zero_le _)
  obtain ⟨cursor, hcursor, hcursorValue, haligned⟩ :=
    exists_elementAddress?_eq_some hsize hend left.cursor_le_capacity
  obtain ⟨behind, hbehind, hbehindValue, -⟩ := hend.exists_addressOf?_eq_some (Nat.le_refl _)
  refine ⟨data, cursor, behind, ⟨hdata, hlast.dataAddress?_eq.trans hdata, ?_⟩,
    ⟨hcursor, hlast.cursorAddress?_eq.trans hcursor, ?_, haligned⟩, ?_,
    offset?_cursor_remaining hsize hcursorValue hbehindValue, ?_⟩
  · rw [hdataValue, hstart, Nat.mul_zero, Nat.add_zero]
  · rw [hcursorValue, hstart]
  · rwa [Region.addressOf?, ← hsetup.address_eq, ← hsetup.size_eq]
  · rw [hbehindValue, hstart, hsetup.size_eq]

/-- The words before the last one of memory are recorded full, after a vector that was refused and a
reset.  The next element would go behind them. -/
theorem addresses_are_exact_in_every_state_of_last_words :
    ∃ image recorder, Layout.region ⟨1, 1⟩ ⟨0xffffffec⟩ 3 = .ok image ∧
      attach (some image) none = .ok recorder ∧
      let left := (recorder.run
        [.record [⟨1⟩], .record [⟨2⟩, ⟨3⟩, ⟨4⟩], .reset, .record [⟨5⟩, ⟨6⟩, ⟨7⟩]]).2
      left.remaining = 0 ∧ left.dataAddress? = some ⟨0xfffffff0⟩ ∧
        left.cursorAddress? = some ⟨0xfffffffc⟩ ∧
        Address.offset? ⟨0xfffffffc⟩ left.remaining = some ⟨0xfffffffc⟩ := by
  have himage : Layout.region ⟨1, 1⟩ ⟨0xffffffec⟩ 3 =
      .ok ⟨⟨0xffffffec⟩, #[1, 0, 0, 0], by decide⟩ := rfl
  obtain ⟨recorder, words, last, hattach, -, -, data, cursor, behind, ⟨hdata, -, hdataValue⟩,
      ⟨hcursor, -, hcursorValue, -⟩, -, hbehind, hbehindValue⟩ :=
    addresses_are_exact_in_every_state himage none
      [.record [⟨1⟩], .record [⟨2⟩, ⟨3⟩, ⟨4⟩], .reset, .record [⟨5⟩, ⟨6⟩, ⟨7⟩]]
  cases hattach
  obtain rfl : data = ⟨0xfffffff0⟩ := Address.eq_of_toNat_eq hdataValue
  obtain rfl : cursor = ⟨0xfffffffc⟩ := Address.eq_of_toNat_eq hcursorValue
  obtain rfl : behind = ⟨0xfffffffc⟩ := Address.eq_of_toNat_eq hbehindValue
  exact ⟨_, _, himage, rfl, by decide, hdata, hcursor, hbehind⟩

end Recorder

end EnsembleRecording
