import MacXterm.Connect.Sizes

namespace Connect.VncConnection

open Qt Rfb Reactor

variable {z : Zlib}

structure Call where
  r : Rectangle
  off : Int
  d : RectData

def callsFrom (buf : QByteArray) : List Rectangle → Int → RfbZlibStream z → List Call
  | [], _, _ => []
  | r :: rects, off, zlib =>
      let off := int32 (off + 12)
      let (d, zlib) := decode zlib r buf off
      ⟨r, off, d⟩ :: if d.complete then callsFrom buf rects (int32 (off + d.consumed)) zlib else []

def update (c : VncConnection z) : Option (List Rectangle) :=
  if c.buf = [] ∨ byteAt c.buf 0 ≠ 0 then none else parseFramebufferUpdate c.buf

def calls (c : VncConnection z) : List Call :=
  match c.update with
  | none => []
  | some rects => callsFrom c.buf rects 4 c.zlib

def CallsInBounds (c : VncConnection z) : Prop := ∀ k ∈ c.calls, InBounds k.d c.buf k.off

def CallsFit (c : VncConnection z) : Prop := ∀ k ∈ c.calls, CallFits k.r c.buf k.off

-- The length given to remove at the end of a turn, where the turn comes to it.
def removal (c : VncConnection z) : Option Int :=
  match c.update with
  | none => none
  | some rects =>
      let u := decodeRects c.buf rects 4 c.zlib
      if u.complete then some u.off else none

section Rects

variable {buf : QByteArray}

theorem skip_header {off : Int} (ha : Addressable buf) (hoff : 0 ≤ off) (hend : off ≤ buf.length) :
    int32 (off + 12) = off + 12 := by
  unfold Addressable at ha
  rw [int32_eq] <;> omega

theorem callsFrom_cons (r : Rectangle) (rects : List Rectangle) {off : Int}
    (zlib : RfbZlibStream z) (ha : Addressable buf) (hoff : 0 ≤ off) (hend : off ≤ buf.length) :
    callsFrom buf (r :: rects) off zlib =
      ⟨r, off + 12, (decode zlib r buf (off + 12)).1⟩ ::
        if (decode zlib r buf (off + 12)).1.complete then
          callsFrom buf rects (int32 (off + 12 + (decode zlib r buf (off + 12)).1.consumed))
            (decode zlib r buf (off + 12)).2
        else [] := by
  rw [callsFrom, skip_header ha hoff hend]

theorem calls_inBounds_iff (ha : Addressable buf) (rects : List Rectangle) {off : Int}
    (zlib : RfbZlibStream z) (hoff : 0 ≤ off) (hend : off ≤ buf.length) :
    (∀ k ∈ callsFrom buf rects off zlib, InBounds k.d buf k.off) ↔
      ∀ k ∈ callsFrom buf rects off zlib, CallFits k.r buf k.off := by
  induction rects generalizing off zlib with
  | nil => simp [callsFrom]
  | cons r rects ih =>
    have hfirst := inBounds_iff (r := r) zlib ha (by omega : 0 ≤ off + 12) (by omega)
    rw [callsFrom_cons r rects zlib ha hoff hend, List.forall_mem_cons, List.forall_mem_cons]
    cases hc : (decode zlib r buf (off + 12)).1.complete with
    | false =>
      simpa using hfirst
    | true =>
      simp only [if_true]
      rw [← hfirst]
      apply and_congr_right
      intro hin
      obtain ⟨hlow, hhigh⟩ := hin hc
      exact ih _ (by omega) hhigh

theorem decodeRects_bounds (ha : Addressable buf) (rects : List Rectangle) {off : Int}
    (zlib : RfbZlibStream z) (hoff : 0 ≤ off) (hend : off ≤ buf.length)
    (hin : ∀ k ∈ callsFrom buf rects off zlib, InBounds k.d buf k.off)
    (hc : (decodeRects buf rects off zlib).complete = true) :
    off ≤ (decodeRects buf rects off zlib).off ∧
      (decodeRects buf rects off zlib).off ≤ buf.length := by
  induction rects generalizing off zlib with
  | nil => exact ⟨Int.le_refl off, hend⟩
  | cons r rects ih =>
    rw [callsFrom_cons r rects zlib ha hoff hend, List.forall_mem_cons] at hin
    obtain ⟨hfirst, hrest⟩ := hin
    rw [decodeRects, skip_header ha hoff hend] at hc ⊢
    simp only at hc ⊢
    cases hd : (decode zlib r buf (off + 12)).1.complete with
    | false => simp [hd] at hc
    | true =>
      have hbounds := hfirst hd
      simp only at hbounds
      obtain ⟨hlow, hhigh⟩ := hbounds
      simp only [hd, Bool.not_true, Bool.false_eq_true, if_false, if_true] at hc hrest ⊢
      obtain ⟨hl, hh⟩ := ih _ (by omega) hhigh hrest hc
      exact ⟨by omega, hh⟩

end Rects

theorem decodeRects_extent (zlib zlib' : RfbZlibStream z) (buf : QByteArray)
    (rects : List Rectangle) (off : Int) :
    (decodeRects buf rects off zlib).complete = (decodeRects buf rects off zlib').complete ∧
      (decodeRects buf rects off zlib).off = (decodeRects buf rects off zlib').off := by
  induction rects generalizing off zlib zlib' with
  | nil => exact ⟨rfl, rfl⟩
  | cons r rects ih =>
    obtain ⟨hcomplete, hconsumed⟩ := decode_extent zlib zlib' r buf (int32 (off + 12))
    simp only [decodeRects, hcomplete, hconsumed]
    split
    · exact ⟨rfl, rfl⟩
    · exact ih _ _ _

section Turn

variable {c : VncConnection z}

theorem length_of_update {rects : List Rectangle} (h : c.update = some rects) :
    4 ≤ c.buf.length := by
  unfold update parseFramebufferUpdate at h
  split at h
  · simp at h
  · split at h
    · simp at h
    · omega

theorem callsInBounds_iff (ha : Addressable c.buf) : c.CallsInBounds ↔ c.CallsFit := by
  unfold CallsInBounds CallsFit calls
  cases hu : c.update with
  | none => simp
  | some rects =>
    have hlength := length_of_update hu
    exact calls_inBounds_iff ha rects c.zlib (by decide) (by omega)

theorem removal_bounds (ha : Addressable c.buf) (hfit : c.CallsFit) {off : Int}
    (hr : c.removal = some off) : 4 ≤ off ∧ off ≤ c.buf.length := by
  have hin := (callsInBounds_iff ha).mpr hfit
  unfold CallsInBounds calls at hin
  unfold removal at hr
  cases hu : c.update with
  | none => simp [hu] at hr
  | some rects =>
    have hlength := length_of_update hu
    simp only [hu] at hin hr
    split at hr
    · rename_i hc
      obtain rfl := Option.some.inj hr
      exact decodeRects_bounds ha rects c.zlib (by decide) (by omega) hin hc
    · simp at hr

theorem readUpdate_go {t : VncConnection z} {out : List Event} (h : c.readUpdate = .go t out) :
    ∃ off, c.removal = some off ∧ t.buf = removeFront c.buf off ∧ t.phase = c.phase := by
  unfold readUpdate at h
  unfold removal update
  split at h
  · simp at h
  · rename_i hfirst
    rw [if_neg hfirst]
    split at h
    · simp at h
    · rename_i rects hp
      simp only [hp]
      cases hc : (decodeRects c.buf rects 4 c.zlib).complete with
      | false => simp [hc] at h
      | true =>
        simp only [hc, Bool.not_true, Bool.false_eq_true, if_false, Turn.go.injEq] at h
        obtain ⟨rfl, -⟩ := h
        exact ⟨_, rfl, rfl, rfl⟩

theorem readUpdate_of_removal {off : Int} (h : c.removal = some off) :
    ∃ t out, c.readUpdate = .go t out ∧ t.buf = removeFront c.buf off ∧ t.phase = c.phase := by
  unfold removal update at h
  unfold readUpdate
  split at h
  · simp at h
  · rename_i rects hu
    split at hu
    · simp at hu
    · rename_i hfirst
      rw [if_neg hfirst, hu]
      simp only at h ⊢
      split at h
      · rename_i hc
        obtain rfl := Option.some.inj h
        rw [hc]
        exact ⟨_, _, rfl, rfl, rfl⟩
      · simp at h

theorem removal_congr {d : VncConnection z} (h : d.buf = c.buf) : d.removal = c.removal := by
  unfold removal update
  rw [h]
  split
  · rfl
  · rename_i rects _
    obtain ⟨hcomplete, hoff⟩ := decodeRects_extent d.zlib c.zlib c.buf rects 4
    simp only [hcomplete, hoff]

-- Only the buffer decides where an update ends, so a turn that removes nothing repeats.
theorem repeats_forever {off : Int} (hphase : c.phase = .running) (hr : c.removal = some off)
    (hkeep : removeFront c.buf off = c.buf) (fuel : Nat) : run turn fuel c = none := by
  induction fuel generalizing c with
  | zero => rfl
  | succ fuel ih =>
    obtain ⟨t, out, hgo, hbuf, hp⟩ := readUpdate_of_removal hr
    rw [hkeep] at hbuf
    have hagain := ih (hp.trans hphase) ((removal_congr hbuf).trans hr) (by rw [hbuf, hkeep])
    rw [run_go ((turn_running hphase).trans hgo), hagain]
    rfl

theorem readUpdate_shrinks (ha : Addressable c.buf) (hfit : c.CallsFit) {t : VncConnection z}
    {out : List Event} (h : c.readUpdate = .go t out) : t.buf.length + 4 ≤ c.buf.length := by
  obtain ⟨off, hr, hbuf, -⟩ := readUpdate_go h
  obtain ⟨hlow, hhigh⟩ := removal_bounds ha hfit hr
  rw [hbuf, removeFront, if_neg (by omega), List.length_drop]
  omega

theorem running_settles (hphase : c.phase = .running) (ha : Addressable c.buf)
    (hfit : ∀ t out, Reach turn c t out → t.CallsFit) : ∃ t out, Settles turn c t out := by
  induction hn : c.buf.length using Nat.strong_induction_on generalizing c with
  | _ n ih =>
    have hturn := turn_running hphase
    cases ht : c.readUpdate with
    | rest t out => exact ⟨t, out, settles_rest (hturn.trans ht)⟩
    | go t out =>
      have hshrink := readUpdate_shrinks ha (hfit c [] (.refl c)) ht
      obtain ⟨_, -, -, hp⟩ := readUpdate_go ht
      have hgo : turn c = .go t out := hturn.trans ht
      have hat : Addressable t.buf := by
        unfold Addressable at ha ⊢
        omega
      obtain ⟨u, more, hs⟩ := ih t.buf.length (by omega) (hp.trans hphase) hat
        (fun v o hv => hfit v _ (.go hgo hv)) rfl
      exact ⟨u, out ++ more, hs.go hgo⟩

end Turn

theorem running_loop_progress (c : VncConnection z) (hphase : c.phase = .running)
    (ha : Addressable c.buf) :
    (c.CallsInBounds ↔ c.CallsFit) ∧
    (c.CallsFit → ∀ off, c.removal = some off → 4 ≤ off ∧ off ≤ c.buf.length) ∧
    ((∀ t out, Reach turn c t out → t.CallsFit) → ∃ t out, Settles turn c t out) := by
  refine ⟨callsInBounds_iff ha, ?_, running_settles hphase ha⟩
  intro hfit off hr
  exact removal_bounds ha hfit hr

def idleZlib : Zlib := ⟨Unit, (), true, fun _ _ _ => (.ok, (), [], []), fun _ _ => 0⟩

def running (buf : QByteArray) : VncConnection idleZlib :=
  ⟨.running, buf, ⟨64, 64, 32, 24, [], true⟩, .init, .connected⟩

def onePixel : QByteArray := [0, 0, 0, 1, 0, 0, 0, 0, 0, 1, 0, 1, 0, 0, 0, 0, 1, 2, 3, 0]

theorem running_loop_progress_onePixel :
    ((running onePixel).CallsInBounds ↔ (running onePixel).CallsFit) ∧
    ((running onePixel).CallsFit → ∀ off, (running onePixel).removal = some off →
      4 ≤ off ∧ off ≤ (running onePixel).buf.length) ∧
    ((∀ t out, Reach turn (running onePixel) t out → t.CallsFit) →
      ∃ t out, Settles turn (running onePixel) t out) :=
  running_loop_progress (running onePixel) rfl (by unfold Addressable; decide)

def hugeRaw : VncConnection idleZlib :=
  running [0, 0, 0, 1, 0, 0, 0, 0, 0xFF, 0xFF, 0xFF, 0xFF, 0, 0, 0, 0]

def everything : Rectangle := ⟨0, 0, 0xFFFF, 0xFFFF, EncRaw⟩

theorem decode_everything (zlib : RfbZlibStream z) :
    decode zlib everything hugeRaw.buf 16 = (.drawn (-524284) [], zlib) := by
  have hraw : decodeRaw everything hugeRaw.buf 16 4 = .drawn (-524284) [] := by decide
  rw [decode_plain (by decide), decodeRect_raw (by decide), hraw]

theorem decodeRects_everything (zlib : RfbZlibStream z) :
    decodeRects hugeRaw.buf [everything] 4 zlib =
      ⟨[(everything, .drawn (-524284) [])], -524268, zlib, true⟩ := by
  have hheader : int32 (4 + 12) = 16 := by decide
  have hend : int32 (16 + -524284) = -524268 := by decide
  simp only [decodeRects, hheader, decode_everything, RectData.drawn, hend, Bool.not_true,
    Bool.false_eq_true, if_false]

theorem hugeRaw_parse : parseFramebufferUpdate hugeRaw.buf = some [everything] := by decide

theorem hugeRaw_removal : hugeRaw.removal = some (-524268) := by
  have hfirst : ¬ (hugeRaw.buf = [] ∨ byteAt hugeRaw.buf 0 ≠ 0) := by decide
  simp only [removal, update, if_neg hfirst, hugeRaw_parse, decodeRects_everything, if_true]

theorem hugeRaw_never_ends :
    hugeRaw.removal = some (-524268) ∧ ∀ fuel, run turn fuel hugeRaw = none :=
  ⟨hugeRaw_removal, repeats_forever rfl hugeRaw_removal (by decide)⟩

end Connect.VncConnection
