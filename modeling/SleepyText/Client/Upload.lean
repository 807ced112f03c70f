import SleepyText.Client.Network

set_option relaxedAutoImplicit false
set_option autoImplicit false

/-!
# What an upload keeps of a change

The editor cuts the texts of a change at positions between code units, and the upload sends them
as UTF-8, where the half of a surrogate pair cannot be written.

## Main definitions

* `Change.received` — the change that the blobs of a change are read back as.
* `Recovered` — the change recorded between two texts is received as it was.

## Main results

* `recovered_iff` — a change is recovered exactly when neither of the two cuts of the editor goes
  through a surrogate pair.
* `not_recovered_emoji` — one emoji replaced by another is not.
-/

namespace SleepyText.Client

open Splice Utf

/-- The change with the texts that are read from its blobs. -/
def Change.received (change : Change) : Option Change := do
  let last ← ofUtf8 (blob change.last)
  let now ← ofUtf8 (blob change.now)
  some ⟨change.pos, last, now⟩

/-- The change recorded between `last` and `text` is read back from its blobs as it was, and turns
`last` into `text`. -/
def Recovered (last text : JsString) : Prop :=
  ∃ change, (diff last text).received = some change ∧ change.last = (diff last text).last ∧
    change.now = (diff last text).now ∧ change.applyTo last = text

/-- A change is received as it was when both of its texts are well formed. -/
lemma received_eq_some_iff (change change' : Change) :
    change.received = some change' ∧ change'.last = change.last ∧ change'.now = change.now ↔
      change' = change ∧ WellFormed change.last ∧ WellFormed change.now := by
  simp only [Change.received, Option.bind_eq_bind, Option.bind_eq_some_iff, Option.some.injEq]
  constructor
  · rintro ⟨⟨last, hlast, now, hnow, rfl⟩, rfl, rfl⟩
    exact ⟨rfl, (ofUtf8_toUtf8_iff _).mp hlast, (ofUtf8_toUtf8_iff _).mp hnow⟩
  · rintro ⟨rfl, hlast, hnow⟩
    exact ⟨⟨_, (ofUtf8_toUtf8_iff _).mpr hlast, _, (ofUtf8_toUtf8_iff _).mpr hnow, rfl⟩, rfl, rfl⟩

/-- A change is recovered when both of its texts are well formed. -/
lemma recovered_iff_wellFormed (last text : JsString) :
    Recovered last text ↔ WellFormed (diff last text).last ∧ WellFormed (diff last text).now := by
  constructor
  · rintro ⟨change, hrec, hlast, hnow, -⟩
    exact ((received_eq_some_iff _ _).mp ⟨hrec, hlast, hnow⟩).2
  · intro h
    obtain ⟨hrec, hlast, hnow⟩ := (received_eq_some_iff _ (diff last text)).mpr ⟨rfl, h⟩
    exact ⟨diff last text, hrec, hlast, hnow, (diff_applyTo last text).2⟩

/-- What is left of a text behind its common prefix with another. -/
abbrev behindPrefix (last text : JsString) : JsString :=
  last.drop (commonPrefix last text).length

/-- **Recovery.** For well-formed texts the change recorded is recovered exactly when their common
prefix does not end, and the common suffix behind it does not start, inside a surrogate pair.

**Proof sketch.** The texts are `a ++ ls ++ c` and `a ++ ts ++ c` for the change from `ls` to
`ts` (`diff_split`). Cutting well-formed strings between pairs leaves well-formed strings
(`WellFormed.cut`). Conversely, if `ls` or `ts` is well formed and not empty then so is the `a` in
front of it; both are empty only for equal texts, where `a` is all of them. -/
theorem recovered_iff {last text : JsString} (hlast : WellFormed last) (htext : WellFormed text) :
    Recovered last text ↔ WellFormed (commonPrefix last text) ∧
      WellFormed (commonSuffix (behindPrefix last text) (behindPrefix text last)) := by
  rw [recovered_iff_wellFormed]
  obtain ⟨us, vs, ls, ts, hus, hvs, hls, hts, hdiff⟩ := diff_split last text
  have hbehind : behindPrefix last text = us := by
    calc last.drop (commonPrefix last text).length
        = (commonPrefix last text ++ us).drop (commonPrefix last text).length := by rw [← hus]
      _ = us := List.drop_left
  have hbehind' : behindPrefix text last = vs := by
    calc text.drop (commonPrefix text last).length
        = (commonPrefix last text ++ vs).drop (commonPrefix last text).length := by
          rw [← hvs, commonPrefix_comm]
      _ = vs := List.drop_left
  rw [hdiff, hbehind, hbehind']
  dsimp only
  by_cases heq : last = text
  · subst heq
    have hnil : us = [] := by simpa using hus
    have hnil' : vs = [] := by simpa using hvs
    subst hnil hnil'
    have hls' : ls = [] := (List.append_eq_nil_iff.mp hls.symm).1
    have hts' : ts = [] := (List.append_eq_nil_iff.mp hts.symm).1
    simp [hls', hts', commonSuffix, wellFormed_nil, hlast]
  have hlast' : WellFormed (commonPrefix last text ++ ls ++ commonSuffix us vs) := by
    rwa [List.append_assoc, ← hls, ← hus]
  have htext' : WellFormed (commonPrefix last text ++ ts ++ commonSuffix us vs) := by
    rwa [List.append_assoc, ← hts, ← hvs]
  have hne : ls ≠ [] ∨ ts ≠ [] := by
    by_contra h
    push Not at h
    obtain ⟨rfl, rfl⟩ := h
    exact heq (hus.trans ((congrArg _ (hls.trans hts.symm)).trans hvs.symm))
  set a := commonPrefix last text
  set c := commonSuffix us vs
  -- the parts behind the common prefix, cut off both texts
  have hcut (xs : JsString) (h : WellFormed (a ++ xs ++ c)) (ha : WellFormed a) :
      WellFormed xs ↔ WellFormed c :=
    WellFormed.cut ((WellFormed.cut (List.append_assoc a xs c ▸ h)).mp ha)
  constructor
  · rintro ⟨hwls, hwts⟩
    have ha : WellFormed a := by
      rcases hne with hne | hne
      · exact hlast'.of_middle hwls hne
      · exact htext'.of_middle hwts hne
    exact ⟨ha, (hcut ls hlast' ha).mp hwls⟩
  · rintro ⟨ha, hc⟩
    exact ⟨(hcut ls hlast' ha).mpr hc, (hcut ts htext' ha).mpr hc⟩

/-- A letter typed behind an emoji is recovered. -/
theorem recovered_iff_typed :
    Recovered [0xD83D, 0xDE00] [0xD83D, 0xDE00, 97] ↔
      WellFormed (commonPrefix [0xD83D, 0xDE00] [0xD83D, 0xDE00, 97]) ∧
        WellFormed (commonSuffix (behindPrefix [0xD83D, 0xDE00] [0xD83D, 0xDE00, 97])
          (behindPrefix [0xD83D, 0xDE00, 97] [0xD83D, 0xDE00])) :=
  recovered_iff (by decide) (by decide)

/-- One emoji replaced by another with the same first half is not recovered. -/
theorem not_recovered_emoji :
    WellFormed [0xD83D, 0xDE00] ∧ WellFormed [0xD83D, 0xDE01] ∧
      ¬ Recovered [0xD83D, 0xDE00] [0xD83D, 0xDE01] := by
  refine ⟨by decide, by decide, ?_⟩
  rw [recovered_iff_wellFormed]
  decide

end SleepyText.Client
