import MacXterm.Ui.Widget

namespace Ui

open Qt Core SessionDialog

theorem value_setSession (label : QString) (s : Session) :
    ∀ c ∈ controls, c.value (setSession label s) = c.widget.written label s c.key := by
  have hhost : (SessionForm.fromSession s).value "host" [] = s.param "host" :=
    SessionForm.fromSession_core s (k := "host") (by decide)
  have hport : (SessionForm.fromSession s).value "port" [] = s.param "port" :=
    SessionForm.fromSession_core s (k := "port") (by decide)
  have huser : (SessionForm.fromSession s).value "username" [] = s.param "username" :=
    SessionForm.fromSession_core s (k := "username") (by decide)
  intro c hc
  simp only [controls, List.mem_cons, List.not_mem_nil, or_false] at hc
  rcases hc with rfl | rfl | rfl | rfl | rfl | rfl | rfl | rfl | rfl | rfl | rfl | rfl | rfl | rfl |
    rfl | rfl | rfl | rfl | rfl | rfl | rfl | rfl | rfl | rfl | rfl | rfl | rfl | rfl | rfl | rfl |
    rfl | rfl | rfl | rfl
  · exact congrArg (fun t => some (lineEdit t)) hhost
  · exact congrArg (fun t => Control.positive (spinBox 65535 ((variantToInt t).getD 0)).val) hport
  · exact congrArg (fun t => some (lineEdit t)) huser
  all_goals rfl

theorem type_setSession (label : QString) (s : Session) :
    (setSession label s).type.val = s.type ↔ s.type ∈ typeItems := by
  refine ⟨fun h => h ▸ (setSession label s).type.property, fun h => ?_⟩
  have htext : (SessionForm.fromSession s).value "type" [] = sessionTypeToString s.type :=
    SessionForm.fromSession_core s (k := "type") (by decide)
  have hval : (setSession label s).type = typeItem (sessionTypeToString s.type) :=
    congrArg typeItem htext
  rw [hval]
  generalize s.type = t at h
  simp only [typeItems, List.mem_cons, List.not_mem_nil, or_false] at h
  rcases h with rfl | rfl | rfl | rfl | rfl | rfl | rfl | rfl | rfl | rfl | rfl | rfl | rfl <;>
    decide

theorem shown_setSession (label : QString) {s : Session} (htype : s.type ∈ typeItems) (p : Page) :
    p.shown (setSession label s).type (setSession label s).gateway =
      p.shown s.type (s.param "gateway") := by
  rw [(type_setSession label s).mpr htype]
  cases p with
  | gateway => exact decide_eq_decide.mpr (not_congr (lineEdit_eq_nil_iff (s.param "gateway")))
  | _ => rfl

theorem findIdx_cross {w : QString} (h : QString) (hw : '×' ∉ w) :
    (w ++ '×' :: h).findIdx (· == '×') = w.length := by
  induction w with
  | nil => simp [List.findIdx_cons]
  | cons c w ih =>
    obtain ⟨hc, hw⟩ := not_or.mp (List.mem_cons.not.mp hw)
    rw [List.cons_append, List.findIdx_cons, ih hw, beq_false_of_ne (Ne.symm hc)]
    rfl

theorem not_mem_of_listed {w h : QString} (hitem : w ++ '×' :: h ∈ resolutionItems) : '×' ∉ w := by
  have hcount : ∀ r ∈ resolutionItems, r.count '×' ≤ 1 := by decide
  have hone := hcount _ hitem
  rw [List.count_append, List.count_cons_self] at hone
  intro hmem
  have hpos := List.count_pos_iff.mpr hmem
  omega

theorem rdpSize_listed {d : SessionDialog} {w h : QString} (hw : w ≠ [])
    (hitem : w ++ '×' :: h ∈ resolutionItems) (hd : d.rdpResolution.val = w ++ '×' :: h) :
    d.rdpSize = ((toInt w).getD 0, (toInt h).getD 0) := by
  have hlen := List.length_pos_of_ne_nil hw
  rw [rdpSize, hd, findIdx_cross h (not_mem_of_listed hitem)]
  simp [hlen]

theorem rdpSize_unlisted (d : SessionDialog) (hd : d.rdpResolution.val = "Default".toList) :
    d.rdpSize = (0, 0) := by
  rw [rdpSize, hd]
  decide

theorem resolution_setSession (label : QString) (s : Session) :
    (setSession label s).rdpResolution = resolutionItem (s.param "width") (s.param "height") := rfl

theorem toInt_side {d : SessionDialog} {n : Int} (hn : n < 2 ^ 31)
    (hpos : d.rdpSize.1 > 0 ∧ d.rdpSize.2 > 0 → 0 < n) :
    (toInt ((Control.side d n).getD [])).getD 0 =
      if d.rdpSize.1 > 0 ∧ d.rdpSize.2 > 0 then n else 0 := by
  rw [Control.side, parse_written toInt toInt_nil _ n fun h =>
    toInt_number_int (Int.le_of_lt (hpos h)) hn]
  split <;> rfl

theorem desktopSize_written {d : SessionDialog} {t : Session} (hw : d.rdpSize.1 < 2 ^ 31)
    (hh : d.rdpSize.2 < 2 ^ 31)
    (hwidth : t.params.find "width" = Control.side d d.rdpSize.1)
    (hheight : t.params.find "height" = Control.side d d.rdpSize.2) :
    t.desktopSize = if 0 < d.rdpSize.1 ∧ 0 < d.rdpSize.2 then some d.rdpSize else none := by
  rw [Session.desktopSize, Session.param_eq, Session.param_eq, hwidth, hheight,
    toInt_side hw And.left, toInt_side hh And.right]
  split <;> simp_all

theorem size_iff (label : QString) (s t : Session)
    (hwidth : t.params.find "width" =
      Control.side (setSession label s) (setSession label s).rdpSize.1)
    (hheight : t.params.find "height" =
      Control.side (setSession label s) (setSession label s).rdpSize.2) :
    t.desktopSize = s.desktopSize ↔ s.desktopSize = none ∨
      s.param "width" ++ '×' :: s.param "height" ∈ resolutionItems := by
  have hres := congrArg Subtype.val (resolution_setSession label s)
  rw [resolutionItem] at hres
  by_cases hfull : s.param "width" ≠ [] ∧ s.param "height" ≠ []
  · by_cases hitem : s.param "width" ++ '×' :: s.param "height" ∈ resolutionItems
    · simp only [if_pos hfull, dif_pos hitem] at hres
      have hsize := rdpSize_listed hfull.1 hitem hres
      refine iff_of_true ?_ (.inr hitem)
      rw [desktopSize_written (by rw [hsize]; exact getD_toInt_lt _)
        (by rw [hsize]; exact getD_toInt_lt _) hwidth hheight, hsize]
      rfl
    · simp only [if_pos hfull, dif_neg hitem] at hres
      have hsize := rdpSize_unlisted _ hres
      rw [desktopSize_written (by rw [hsize]; decide) (by rw [hsize]; decide) hwidth hheight, hsize]
      exact ⟨fun h => .inl h.symm, fun h => (h.resolve_right hitem).symm⟩
  · simp only [if_neg hfull] at hres
    have hdefault : "Default".toList ∈ resolutionItems := by decide
    rw [dif_pos hdefault] at hres
    have hsize := rdpSize_unlisted _ hres
    have hempty := Session.desktopSize_empty hfull
    refine iff_of_true ?_ (.inl hempty)
    rw [desktopSize_written (by rw [hsize]; decide) (by rw [hsize]; decide) hwidth hheight, hsize,
      hempty]
    rfl

theorem find_written (label : QString) {s : Session} (htype : s.type ∈ typeItems) {c : Control}
    (hc : c ∈ controls) :
    (setSession label s).session.params.find c.key =
      if c.page.shown s.type (s.param "gateway") then c.widget.written label s c.key else none := by
  rw [session_find_control _ hc, shown_setSession label htype, value_setSession label s c hc]

theorem reading_port_iff (label : QString) {s : Session} (htype : s.type ∈ typeItems) :
    (setSession label s).session.reading "port" = s.reading "port" ↔
      Widget.port.Keeps label s "port" := by
  have hbounds := defaultPort_bounds s.type
  have hfind := find_written label htype
    (c := ⟨"port", .every, .port, fun d => Control.positive d.port.val⟩)
    (List.mem_cons_of_mem _ List.mem_cons_self)
  have hparam : (setSession label s).session.param "port" = (Control.positive
      (spinBox 65535 ((variantToInt (s.param "port")).getD 0)).val).getD [] := by
    rw [Session.param_eq, hfind]
    rfl
  rw [Session.reading_port, Session.reading_port, session_type,
    (type_setSession label s).mpr htype, Widget.Keeps]
  split
  · rw [Reading.text.injEq, hparam, port_text_iff]
  · rw [Reading.number.injEq, Session.port_eq, Session.port_eq, session_type,
      (type_setSession label s).mpr htype, hparam,
      port_number_iff _ _ hbounds.1 hbounds.2]

theorem reading_size_iff (label : QString) {s : Session} (htype : s.type ∈ typeItems)
    (hrdp : Page.rdp.shown s.type (s.param "gateway") = true) :
    (setSession label s).session.desktopSize = s.desktopSize ↔ s.desktopSize = none ∨
      s.param "width" ++ '×' :: s.param "height" ∈ resolutionItems := by
  have hcontrol (k : QString) (w : Widget) (v : SessionDialog → Option QString)
      (hc : ⟨k, .rdp, w, v⟩ ∈ controls) :
      (setSession label s).session.params.find k = w.written label s k := by
    rw [find_written label htype hc, if_pos hrdp]
  refine size_iff label s _ (hcontrol "width" .width (fun d => Control.side d d.rdpSize.1) ?_)
    (hcontrol "height" .height (fun d => Control.side d d.rdpSize.2) ?_) <;>
  simp [controls]

theorem reading_control_iff (label : QString) {s : Session} (htype : s.type ∈ typeItems)
    {c : Control} (hc : c ∈ controls) (hshown : c.page.shown s.type (s.param "gateway") = true) :
    (setSession label s).session.reading c.key = s.reading c.key ↔
      c.widget.Keeps label s c.key := by
  have hports : ∀ c ∈ controls, c.widget = .port → c.key = "port".toList := by decide
  have hsizes : ∀ c ∈ controls, c.widget = .width ∨ c.widget = .height →
      c.page = .rdp ∧ (c.key = "width".toList ∨ c.key = "height".toList) := by decide +kernel
  have hothers : ∀ c ∈ controls, c.widget ≠ .port → ¬(c.widget = .width ∨ c.widget = .height) →
      c.key ≠ "port".toList ∧ ¬(c.key = "width".toList ∨ c.key = "height".toList) ∧
        c.key ≠ "localuser".toList ∧ useOf c.key = c.widget.use := by decide +kernel
  by_cases hport : c.widget = .port
  · rw [hports c hc hport, hport]
    exact reading_port_iff label htype
  · by_cases hsize : c.widget = .width ∨ c.widget = .height
    · obtain ⟨hpage, hkey⟩ := hsizes c hc hsize
      have hkeeps : c.widget.Keeps label s c.key ↔ s.desktopSize = none ∨
          s.param "width" ++ '×' :: s.param "height" ∈ resolutionItems := by
        rcases hsize with h | h <;> rw [h] <;> rfl
      rw [Session.reading_size _ hkey, Session.reading_size _ hkey, Reading.size.injEq, hkeeps]
      exact reading_size_iff label htype (hpage ▸ hshown)
    · obtain ⟨hkport, hksize, hkuser, huse⟩ := hothers c hc hport hsize
      rw [Session.reading_of_use _ hkport hksize hkuser,
        Session.reading_of_use _ hkport hksize hkuser, huse,
        find_written label htype hc, if_pos hshown]
      exact read_written_iff label s c.key hport (fun h => hsize (.inl h)) fun h => hsize (.inr h)

-- The sessions the dialog edits without loss: the type is offered, every parameter with a control
-- on a page of that type is one that its widget holds, and no other parameter says anything.
structure Editable (label : QString) (s : Session) : Prop where
  type : s.type ∈ typeItems
  name : Fits s.name
  shown : ∀ c ∈ controls, c.page.shown s.type (s.param "gateway") = true →
    c.widget.Keeps label s c.key
  absent : ∀ k, (∀ c ∈ controls, c.key = k → c.page.shown s.type (s.param "gateway") = false) →
    s.ReadsAbsent k

theorem find_absent (label : QString) {s : Session} (htype : s.type ∈ typeItems) {k : QString}
    (hk : ∀ c ∈ controls, c.key = k → c.page.shown s.type (s.param "gateway") = false) :
    (setSession label s).session.params.find k = none := by
  by_cases hcontrol : ∀ c ∈ controls, c.key ≠ k
  · exact session_find_other _ hcontrol
  · simp only [not_forall, not_not] at hcontrol
    obtain ⟨c, hc, rfl⟩ := hcontrol
    rw [find_written label htype hc, if_neg (by rw [hk c hc rfl]; decide)]

theorem name_setSession (label : QString) (s : Session) :
    (setSession label s).session.name = lineEdit s.name := by
  rw [session_name]
  exact congrArg lineEdit (SessionForm.fromSession_core s (k := "name") (by decide))

theorem not_port {s : Session} {k : QString}
    (hk : ∀ c ∈ controls, c.key = k → c.page.shown s.type (s.param "gateway") = false) :
    k ≠ "port".toList := by
  rintro rfl
  have hport : ∃ c ∈ controls, c.key = "port".toList ∧ c.page = .every := by decide
  obtain ⟨c, hc, hkey, hpage⟩ := hport
  have hshown := hk c hc hkey
  rw [hpage] at hshown
  exact Bool.noConfusion hshown

theorem edit_preserves_iff (label : QString) (s : Session) :
    ((setSession label s).session).Same s ↔ Editable label s := by
  constructor
  · rintro ⟨hname, htype, hparams⟩
    rw [session_type, type_setSession] at htype
    rw [name_setSession, lineEdit_eq_iff] at hname
    refine ⟨htype, hname, fun c hc hshown => ?_, fun k hk => ?_⟩
    · exact (reading_control_iff label htype hc hshown).mp (hparams c.key)
    · have huser := (Session.username_eq_iff s _).mpr (hparams "username")
      have habsent := Session.reading_absent (not_port hk) huser (find_absent label htype hk)
      exact (hparams k).symm.trans habsent
  · rintro ⟨htype, hname, hshown, habsent⟩
    have hcontrol {c : Control} (hc : c ∈ controls)
        (h : c.page.shown s.type (s.param "gateway") = true) :
        (setSession label s).session.reading c.key = s.reading c.key :=
      (reading_control_iff label htype hc h).mpr (hshown c hc h)
    have huser : (setSession label s).session.username = s.username := by
      have hfield : ∃ c ∈ controls, c.key = "username".toList ∧ c.page = .every := by decide
      obtain ⟨c, hc, hkey, hpage⟩ := hfield
      rw [Session.username_eq_iff, ← hkey]
      exact hcontrol hc (by rw [hpage]; rfl)
    refine ⟨?_, ?_, fun k => ?_⟩
    · rw [name_setSession, lineEdit_eq_iff]
      exact hname
    · rw [session_type, type_setSession]
      exact htype
    · by_cases hk : ∀ c ∈ controls, c.key = k → c.page.shown s.type (s.param "gateway") = false
      · rw [Session.reading_absent (not_port hk) huser (find_absent label htype hk)]
        exact (habsent k hk).symm
      · simp only [not_forall, Bool.not_eq_false] at hk
        obtain ⟨c, hc, rfl, h⟩ := hk
        exact hcontrol hc h

theorem keeps_blank (label name : QString) (t : SessionType) (k : QString) (w : Widget) :
    w.Keeps label ⟨name, t, .empty⟩ k := by
  have hblank : (⟨name, t, .empty⟩ : Session).param k = [] := rfl
  have hsize : (⟨name, t, .empty⟩ : Session).desktopSize = none :=
    Session.desktopSize_empty fun h => h.1 rfl
  cases w with
  | field | line => exact Nat.zero_le _
  | picker => exact ⟨Nat.zero_le _, rfl⟩
  | icon => exact .inl hblank
  | on | off | backspace => trivial
  | port =>
    rw [Widget.Keeps, hblank, toInt_nil, variantToInt_nil]
    split
    · exact .inl rfl
    · exact nofun
  | keepalive =>
    rw [Widget.Keeps, hblank, toInt_nil]
    exact nofun
  | fontSize =>
    rw [Widget.Keeps, hblank, variantToInt_nil]
    exact nofun
  | scheme => exact List.mem_cons_self
  | scrollback => exact .inl hblank
  | width | height => exact .inl hsize

theorem blank_editable (label : QString) {name : QString} {t : SessionType} (ht : t ∈ typeItems)
    (hname : Fits name) : Editable label ⟨name, t, .empty⟩ :=
  ⟨ht, hname, fun c _ _ => keeps_blank label name t c.key c.widget, fun _ _ => rfl⟩

theorem edit_drops_vault_ref :
    ¬((setSession "(default for type)" ⟨"web", .ssh, .ofList [("host", "h"), ("username", "u"),
      ("vault_ref", "session:web")]⟩).session).Same ⟨"web", .ssh, .ofList [("host", "h"),
      ("username", "u"), ("vault_ref", "session:web")]⟩ :=
  fun h => absurd (h.params "vault_ref") (by decide +kernel)

end Ui
