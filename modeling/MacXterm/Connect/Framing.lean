import MacXterm.Connect.Messages

namespace Connect

open Qt Rfb Reactor

namespace Rfb

structure Colour where
  red : UInt16
  green : UInt16
  blue : UInt16

def Colour.bytes (c : Colour) : QByteArray :=
  BigEndian.bytes16 c.red ++ BigEndian.bytes16 c.green ++ BigEndian.bytes16 c.blue

inductive ServerMessage where
  | framebufferUpdate (u : FramebufferUpdate)
  | setColourMapEntries (pad : UInt8) (first : UInt16) (colours : List Colour)
      (short : colours.length < 2 ^ 16)
  | bell
  | serverCutText (pad : UInt8 × UInt8 × UInt8) (text : QByteArray) (short : text.length < 2 ^ 32)

namespace ServerMessage

def bytes : ServerMessage → QByteArray
  | .framebufferUpdate u => u.bytes
  | .setColourMapEntries pad first colours _ =>
      [1, pad] ++ BigEndian.bytes16 first ++ BigEndian.bytes16 (.ofNat colours.length) ++
        colours.flatMap Colour.bytes
  | .bell => [2]
  | .serverCutText pad text _ =>
      [3, pad.1, pad.2.1, pad.2.2] ++ BigEndian.bytes32 (.ofNat text.length) ++ text

def rects : ServerMessage → List EncodedRect
  | .framebufferUpdate u => u.rects
  | _ => []

def Fits : ServerMessage → Prop
  | .framebufferUpdate u => u.Fits
  | _ => True

-- The messages that the client delimits.
def Delimited : ServerMessage → Prop
  | .framebufferUpdate u => u.HeadersTogether
  | _ => False

end ServerMessage

def stream (messages : List ServerMessage) : QByteArray := messages.flatMap ServerMessage.bytes

def rectanglesOf (messages : List ServerMessage) : List (Rectangle × RectData) :=
  (messages.flatMap ServerMessage.rects).map fun r => (r.header, r.data)

theorem Inflates.append {z : Zlib} {zlib zlib' : RfbZlibStream z} {rects later : List EncodedRect}
    (h : Inflates zlib (rects ++ later) zlib') :
    ∃ next, Inflates zlib rects next ∧ Inflates next later zlib' := by
  induction rects generalizing zlib with
  | nil => exact ⟨zlib, rfl, h⟩
  | cons r rects ih =>
    cases hb : r.body with
    | plain encoding bytes content encodes =>
      simp only [List.cons_append, Inflates, hb] at h
      obtain ⟨next, hrects, hlater⟩ := ih h
      refine ⟨next, ?_, hlater⟩
      simpa only [Inflates, hb] using hrects
    | zrle picture tiles compressed encodes short =>
      simp only [List.cons_append, Inflates, hb] at h
      obtain ⟨after, hinflate, hok, hrest⟩ := h
      obtain ⟨next, hrects, hlater⟩ := ih hrest
      refine ⟨next, ?_, hlater⟩
      simp only [Inflates, hb]
      exact ⟨after, hinflate, hok, hrects⟩

end Rfb

namespace VncConnection

variable {z : Zlib} {c t : VncConnection z}

-- The rectangles that one turn of the loop decodes.
def decodedRects (c : VncConnection z) : List (Rectangle × RectData) :=
  match c.update with
  | none => []
  | some rects => (decodeRects c.buf rects 4 c.zlib).decoded

inductive LoopDecodes : VncConnection z → List (Rectangle × RectData) → VncConnection z → Prop
  | rest {c t : VncConnection z} {out : List Event} : c.turn = .rest t out →
      LoopDecodes c c.decodedRects t
  | go {c t u : VncConnection z} {out : List Event} {later : List (Rectangle × RectData)} :
      c.turn = .go t out → LoopDecodes t later u → LoopDecodes c (c.decodedRects ++ later) u

theorem readUpdate_out {out : List Event}
    (h : c.readUpdate = .rest t out ∨ c.readUpdate = .go t out) :
    out = c.decodedRects.map signal ∧ t.phase = c.phase := by
  rw [readUpdate_eq] at h
  unfold decodedRects
  cases hu : c.update with
  | none =>
    simp only [hu] at h
    rcases h with h | h
    · obtain ⟨rfl, rfl⟩ := Turn.rest.inj h
      exact ⟨rfl, rfl⟩
    · simp at h
  | some rects =>
    simp only [hu] at h
    split at h
    · rcases h with h | h
      · obtain ⟨rfl, rfl⟩ := Turn.rest.inj h
        exact ⟨rfl, rfl⟩
      · simp at h
    · rcases h with h | h
      · simp at h
      · obtain ⟨rfl, rfl⟩ := Turn.go.inj h
        exact ⟨rfl, rfl⟩

theorem LoopDecodes.settles {pairs : List (Rectangle × RectData)} (h : LoopDecodes c pairs t)
    (hphase : c.phase = .running) : Settles turn c t (pairs.map signal) := by
  induction h with
  | rest hrest =>
    rw [turn_running hphase] at hrest
    obtain ⟨rfl, -⟩ := readUpdate_out (.inl hrest)
    exact settles_rest ((turn_running hphase).trans hrest)
  | go hgo _ ih =>
    rw [turn_running hphase] at hgo
    obtain ⟨rfl, hp⟩ := readUpdate_out (.inr hgo)
    rw [List.map_append]
    exact (ih (hp.trans hphase)).go ((turn_running hphase).trans hgo)

theorem decoded_headers {buf : QByteArray} (rects : List Rectangle) {off : Int}
    (zlib : RfbZlibStream z) (h : (decodeRects buf rects off zlib).complete = true) :
    (decodeRects buf rects off zlib).decoded.map Prod.fst = rects := by
  induction rects generalizing off zlib with
  | nil => rfl
  | cons r rects ih =>
    simp only [decodeRects] at h ⊢
    split at h
    · simp at h
    · rename_i hc
      rw [if_neg hc, List.map_cons, ih _ h]

theorem readUpdate_go_headers {out : List Event} (h : c.readUpdate = .go t out) :
    c.update = some (c.decodedRects.map Prod.fst) := by
  rw [readUpdate_eq] at h
  unfold decodedRects
  cases hu : c.update with
  | none => simp [hu] at h
  | some rects =>
    simp only [hu] at h ⊢
    split at h
    · simp at h
    · rename_i hc
      rw [decoded_headers rects c.zlib (by simpa using hc)]

theorem readUpdate_rest_buf {out : List Event} (h : c.readUpdate = .rest t out) :
    t.buf = c.buf := by
  rw [readUpdate_eq] at h
  split at h
  · obtain ⟨rfl, -⟩ := Turn.rest.inj h
    rfl
  · simp only at h
    split at h
    · obtain ⟨rfl, -⟩ := Turn.rest.inj h
      rfl
    · simp at h

theorem update_other {m : ServerMessage} {rest : QByteArray} (hbuf : c.buf = m.bytes ++ rest)
    (hm : ∀ u, m ≠ .framebufferUpdate u) : c.update = none := by
  unfold update
  rw [hbuf]
  cases m with
  | framebufferUpdate u => exact absurd rfl (hm u)
  | setColourMapEntries pad first colours short => rfl
  | bell => rfl
  | serverCutText pad text short => rfl

theorem bytes_ne_nil (m : ServerMessage) : m.bytes ≠ [] := by
  cases m <;> exact nofun

theorem loop_stuck {pairs : List (Rectangle × RectData)} (h : LoopDecodes c pairs t)
    (hphase : c.phase = .running) (hu : c.update = none) : t = c := by
  have hrest : c.readUpdate = .rest c [] := by rw [readUpdate_eq, hu]
  cases h with
  | rest ht =>
    rw [turn_running hphase, hrest] at ht
    exact (Turn.rest.inj ht).1.symm
  | go ht _ =>
    rw [turn_running hphase, hrest] at ht
    simp at ht

-- A loop that ends with nothing left goes on past an update it decodes whole.
theorem headers_of_loop {u : FramebufferUpdate} {rest : QByteArray}
    {later : List (Rectangle × RectData)} (hphase : c.phase = .running)
    (hsplit : c.buf = u.bytes ++ rest) (hnonempty : c.buf ≠ [])
    (hloop : LoopDecodes c (u.decoded ++ later) t) (hempty : t.buf = []) :
    u.HeadersTogether ∧ ∃ next out, c.turn = .go next out ∧ LoopDecodes next later t := by
  generalize hpairs : u.decoded ++ later = pairs at hloop
  cases hloop with
  | rest ht =>
    rw [turn_running hphase] at ht
    exact absurd ((readUpdate_rest_buf ht).symm.trans hempty) hnonempty
  | @go _ next _ out later' ht hlater =>
    have hread := ht
    rw [turn_running hphase] at hread
    have hheaders := readUpdate_go_headers hread
    have hlength : u.decoded.length = c.decodedRects.length := by
      have hparsed := (update_headers hsplit).symm.trans hheaders
      have hcount := congrArg List.length (Option.some.inj hparsed)
      rw [List.length_map, List.length_map, List.length_range] at hcount
      rw [FramebufferUpdate.decoded, List.length_map, hcount]
    obtain ⟨hsame, hrest⟩ := List.append_inj hpairs hlength
    refine ⟨(headers_iff hsplit).mp (hheaders.trans ?_), next, out, ht, hrest ▸ hlater⟩
    rw [← hsame, FramebufferUpdate.decoded, List.map_map]
    rfl

theorem loop_decodes_iff (messages : List ServerMessage) (hphase : c.phase = .running)
    (hbuf : c.buf = stream messages) (hfits : ∀ m ∈ messages, m.Fits)
    {zlib' : RfbZlibStream z} (hz : Inflates c.zlib (messages.flatMap ServerMessage.rects) zlib') :
    (∃ t, LoopDecodes c (rectanglesOf messages) t ∧ t.buf = []) ↔
      ∀ m ∈ messages, m.Delimited := by
  induction messages generalizing c with
  | nil =>
    have hrest : c.turn = .rest c [] := by
      rw [turn_running hphase, readUpdate, if_pos (.inl hbuf)]
    have hnone : c.decodedRects = [] := by
      have hu : c.update = none := if_pos (.inl hbuf)
      rw [decodedRects, hu]
    refine ⟨fun _ m hm => absurd hm (List.not_mem_nil), fun _ => ⟨c, ?_, hbuf⟩⟩
    have hloop := LoopDecodes.rest hrest
    rwa [hnone] at hloop
  | cons m messages ih =>
    rw [List.forall_mem_cons] at hfits ⊢
    rw [List.flatMap_cons] at hz
    have hsplit : c.buf = m.bytes ++ stream messages := by
      rw [hbuf, stream, List.flatMap_cons]
      rfl
    have hnonempty : c.buf ≠ [] := by
      rw [hsplit]
      exact List.append_ne_nil_of_left_ne_nil (bytes_ne_nil m) _
    have hother (hm : ∀ u, m ≠ .framebufferUpdate u) :
        ¬ ∃ t, LoopDecodes c (rectanglesOf (m :: messages)) t ∧ t.buf = [] := by
      rintro ⟨t, hloop, hempty⟩
      rw [loop_stuck hloop hphase (update_other hsplit hm)] at hempty
      exact hnonempty hempty
    cases m with
    | framebufferUpdate u =>
      obtain ⟨next, hrects, hlater⟩ := hz.append
      have hdecoded : rectanglesOf (.framebufferUpdate u :: messages) =
          u.decoded ++ rectanglesOf messages := by
        simp only [rectanglesOf, List.flatMap_cons, List.map_append]
        rfl
      have hgo (htogether : u.HeadersTogether) : c.turn =
          .go { c with buf := stream messages, zlib := next } (u.decoded.map signal) := by
        rw [turn_running hphase]
        exact readUpdate_together hsplit hfits.1 hrects htogether
      have hnext := ih (c := { c with buf := stream messages, zlib := next }) hphase rfl hfits.2
        hlater
      rw [hdecoded]
      constructor
      · rintro ⟨t, hloop, hempty⟩
        obtain ⟨htogether, after, out, hturn, hrest⟩ :=
          headers_of_loop hphase hsplit hnonempty hloop hempty
        obtain ⟨rfl, -⟩ := Turn.go.inj ((hgo htogether).symm.trans hturn)
        exact ⟨htogether, hnext.mp ⟨t, hrest, hempty⟩⟩
      · rintro ⟨htogether, hall⟩
        obtain ⟨t, hloop, hempty⟩ := hnext.mpr hall
        have hfirst := LoopDecodes.go (hgo htogether) hloop
        have hdecodedRects : c.decodedRects = u.decoded := by
          rw [decodedRects, (headers_iff hsplit).mpr htogether]
          simp only [decodeRects_together hsplit hfits.1 hrects]
        rw [hdecodedRects] at hfirst
        exact ⟨t, hfirst, hempty⟩
    | setColourMapEntries pad first colours short =>
      exact iff_of_false (hother nofun) (fun h => h.1)
    | bell => exact iff_of_false (hother nofun) (fun h => h.1)
    | serverCutText pad text short => exact iff_of_false (hother nofun) (fun h => h.1)

theorem stream_decoded_iff (c : VncConnection z) (hphase : c.phase = .running) (hbuf : c.buf = [])
    (messages : List ServerMessage) (hfits : ∀ m ∈ messages, m.Fits) (zlib' : RfbZlibStream z)
    (hz : Inflates c.zlib (messages.flatMap ServerMessage.rects) zlib') :
    ((∃ t, c.onReadyRead (stream messages) = some (t, (rectanglesOf messages).map signal) ∧
        t.buf = [] ∧ LoopDecodes (c.receive (stream messages)) (rectanglesOf messages) t) ↔
      ∀ m ∈ messages, m.Delimited) ∧
    ((∀ m ∈ messages, m.Delimited) → ∀ chunk chunks, chunk ++ chunks.flatten = stream messages →
      c.CleanChunks (chunk :: chunks) → ∃ t out, c.receiveAll (chunk :: chunks) = some (t, out) ∧
        t.buf = [] ∧ view out = view ((rectanglesOf messages).map signal)) := by
  have hreceived : (c.receive (stream messages)).buf = stream messages := by
    rw [receive, hbuf]
    rfl
  have hloop := loop_decodes_iff (c := c.receive (stream messages)) messages hphase hreceived hfits hz
  constructor
  · rw [← hloop]
    constructor
    · rintro ⟨t, -, hempty, hdecodes⟩
      exact ⟨t, hdecodes, hempty⟩
    · rintro ⟨t, hdecodes, hempty⟩
      exact ⟨t, onReadyRead_iff.mpr (hdecodes.settles hphase), hempty, hdecodes⟩
  · intro hall chunk chunks hchunks hclean
    obtain ⟨t, hdecodes, hempty⟩ := hloop.mpr hall
    obtain ⟨u, out, hr⟩ := clean_receives hclean
    obtain ⟨all, hsettle, hview⟩ := receives_flatten view_append receive_receive turn_stable
      turn_resumes (fun _ _ _ _ _ => clean_append) hr hclean
    rw [hchunks] at hsettle
    obtain ⟨rfl, rfl⟩ := hsettle.unique (hdecodes.settles hphase)
    exact ⟨u, out, receiveAll_of_receives hr, hempty, hview.symm⟩

theorem stream_decoded_onePixel :
    ((∃ t, (running []).onReadyRead (stream [.framebufferUpdate onePixelUpdate]) =
          some (t, (rectanglesOf [.framebufferUpdate onePixelUpdate]).map signal) ∧ t.buf = [] ∧
          LoopDecodes ((running []).receive (stream [.framebufferUpdate onePixelUpdate]))
            (rectanglesOf [.framebufferUpdate onePixelUpdate]) t) ↔
      ∀ m ∈ [ServerMessage.framebufferUpdate onePixelUpdate], m.Delimited) ∧
    ((∀ m ∈ [ServerMessage.framebufferUpdate onePixelUpdate], m.Delimited) →
      ∀ chunk chunks, chunk ++ chunks.flatten = stream [.framebufferUpdate onePixelUpdate] →
        (running []).CleanChunks (chunk :: chunks) →
        ∃ t out, (running []).receiveAll (chunk :: chunks) = some (t, out) ∧ t.buf = [] ∧
          view out = view ((rectanglesOf [.framebufferUpdate onePixelUpdate]).map signal)) := by
  have hfits : onePixelUpdate.Fits := ⟨by decide, by decide⟩
  exact stream_decoded_iff (running []) rfl rfl [.framebufferUpdate onePixelUpdate]
    (List.forall_mem_singleton.mpr hfits) .init rfl

theorem bell_stalls :
    ((running []).onReadyRead
        (stream [.bell, .framebufferUpdate onePixelUpdate])).map (fun r => (r.1.buf, r.2)) =
      some (2 :: onePixel, []) ∧
    (rectanglesOf [.bell, .framebufferUpdate onePixelUpdate]).map signal =
      [.rectDecoded 0 0 1 1 [0xFF030201]] := by
  refine ⟨by decide +kernel, by decide⟩

end VncConnection

end Connect
