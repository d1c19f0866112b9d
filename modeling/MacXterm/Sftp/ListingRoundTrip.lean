import MacXterm.Qt.Number
import MacXterm.Qt.PathStore
import MacXterm.Qt.Trim
import MacXterm.Sftp.Listing
import MacXterm.Tools.Ftp.Server

namespace Sftp

open Qt

def Word (w : QString) : Prop := w ≠ [] ∧ ∀ c ∈ w, isSpace c = false

instance (w : QString) : Decidable (Word w) :=
  decidable_of_iff (w ≠ [] ∧ (w.all fun c => !isSpace c) = true) (by simp [Word])

theorem word_one : Word "1" := by decide

theorem word_owner : Word "owner" := by decide

theorem word_group : Word "group" := by decide

-- A word of the listing and the blanks behind it.
structure Column where
  word : QString
  pad : Nat
  valid : Word word

def Column.text (c : Column) : QString := c.word ++ ' ' :: List.replicate c.pad ' '

section Fields

open FtpClient

theorem isSpace_of_regexSpace {c : Char} (h : regexSpace c = true) : isSpace c = true := by
  simp only [regexSpace, Bool.or_eq_true, beq_iff_eq] at h
  rcases h with ((((rfl | rfl) | rfl) | rfl) | rfl) | rfl <;> rfl

theorem not_regexSpace {c : Char} (h : isSpace c = false) : regexSpace c = false := by
  cases hspace : regexSpace c with
  | false => rfl
  | true =>
    rw [isSpace_of_regexSpace hspace] at h
    cases h

theorem Word.not_blank {w : QString} (h : Word w) : ' ' ∉ w := by
  intro hc
  exact absurd (h.2 ' ' hc) (by decide)

theorem fields_append (s t : QString) : fields (s ++ ' ' :: t) = fields s ++ fields t := by
  rw [fields, List.splitOnP_append_cons s t (by rfl), List.filter_append, fields, fields]

theorem fields_blank (t : QString) : fields (' ' :: t) = fields t := fields_append [] t

theorem fields_word {w : QString} (h : Word w) : fields w = [w] := by
  rw [fields, List.splitOnP_eq_singleton fun c hc => not_regexSpace (h.2 c hc)]
  simp [h.1]

theorem fields_ne_nil {s : QString} {c : Char} (hc : c ∈ s) (hspace : regexSpace c = false) :
    fields s ≠ [] := by
  induction s with
  | nil => cases hc
  | cons x xs ih =>
    rw [fields, List.splitOnP_cons_eq_if_modifyHead]
    split
    · rename_i hx
      have htail : c ∈ xs := by
        rcases List.mem_cons.mp hc with rfl | htail
        · rw [hspace] at hx
          cases hx
        · exact htail
      exact ih htail
    · obtain ⟨u, us, hu⟩ := List.exists_cons_of_ne_nil (List.splitOnP_ne_nil regexSpace xs)
      rw [hu]
      simp

theorem fields_columns (cs : List Column) (t : QString) :
    fields (cs.flatMap Column.text ++ t) = cs.map Column.word ++ fields t := by
  induction cs with
  | nil => rfl
  | cons c cs ih =>
    have hpad (n : Nat) (s : QString) : fields (List.replicate n ' ' ++ s) = fields s := by
      induction n with
      | zero => rfl
      | succ n ihn => rw [List.replicate_succ, List.cons_append, fields_blank, ihn]
    rw [List.flatMap_cons, Column.text, List.append_assoc, List.append_assoc, List.cons_append,
      fields_append, fields_word c.valid, hpad, ih]
    rfl

theorem afterFields_word {w : QString} (h : Word w) (field : Nat) (blank : Bool) (t : QString) :
    afterFields field blank (w ++ t) = afterFields field false t := by
  obtain ⟨c, w, rfl⟩ := List.exists_cons_of_ne_nil h.1
  have hblank := h.not_blank
  clear h
  induction w generalizing c blank with
  | nil =>
    have hc : c ≠ ' ' := fun hc => hblank (hc ▸ List.mem_cons_self)
    rw [List.singleton_append, afterFields, if_neg (fun hand => hc hand.1), beq_false_of_ne hc]
  | cons d w ih =>
    have hc : c ≠ ' ' := fun hc => hblank (hc ▸ List.mem_cons_self)
    rw [List.cons_append, afterFields, if_neg (fun hand => hc hand.1)]
    exact ih _ d fun hmem => hblank (List.mem_cons_of_mem _ hmem)

theorem afterFields_pad (field n : Nat) (t : QString) :
    afterFields field true (List.replicate n ' ' ++ t) = afterFields field true t := by
  induction n with
  | zero => rfl
  | succ n ih =>
    rw [List.replicate_succ, List.cons_append, afterFields, if_neg (fun hand => hand.2 rfl)]
    exact ih

theorem afterFields_columns {cs : List Column} {w : QString} (hw : Word w) {field : Nat}
    (h : field + cs.length = 7) (blank : Bool) (t : QString) :
    afterFields field blank (cs.flatMap Column.text ++ w ++ ' ' :: t) = some t := by
  induction cs generalizing field blank with
  | nil =>
    rw [List.flatMap_nil, List.nil_append, afterFields_word hw, afterFields,
      if_pos ⟨rfl, Bool.false_ne_true⟩, if_pos]
    simpa using h
  | cons c cs ih =>
    rw [List.length_cons] at h
    rw [List.flatMap_cons, Column.text, List.append_assoc, List.append_assoc, List.append_assoc,
      afterFields_word c.valid, List.cons_append, afterFields, if_pos ⟨rfl, Bool.false_ne_true⟩,
      if_neg (by omega), afterFields_pad, ← List.append_assoc]
    exact ih (by omega) true

end Fields

-- A date as QDateTime writes it for "MMM dd hh:mm".
structure FileDate where
  month : Fin 12
  day : Fin 31
  hour : Fin 24
  minute : Fin 60

namespace FileDate

def monthName (m : Fin 12) : QString :=
  match m with
  | 0 => "Jan" | 1 => "Feb" | 2 => "Mar" | 3 => "Apr" | 4 => "May" | 5 => "Jun"
  | 6 => "Jul" | 7 => "Aug" | 8 => "Sep" | 9 => "Oct" | 10 => "Nov" | 11 => "Dec"

def twoDigits (n : Nat) : QString := if n < 10 then '0' :: number n else number n

variable (d : FileDate)

def dayText : QString := twoDigits (d.day.val + 1)

def timeText : QString := twoDigits d.hour.val ++ ':' :: twoDigits d.minute.val

def text : QString := monthName d.month ++ ' ' :: d.dayText ++ ' ' :: d.timeText

theorem word_monthName (m : Fin 12) : Word (monthName m) := by
  revert m
  decide

theorem digit_of_twoDigits {n : Nat} {c : Char} (h : c ∈ twoDigits n) : c.isDigit = true := by
  rw [twoDigits] at h
  split at h
  · rcases List.mem_cons.mp h with rfl | h
    · rfl
    · exact isDigit_of_mem_number h
  · exact isDigit_of_mem_number h

theorem twoDigits_ne_nil (n : Nat) : twoDigits n ≠ [] := by
  rw [twoDigits]
  split
  · exact List.cons_ne_nil _ _
  · exact number_ne_nil n

theorem word_dayText : Word d.dayText :=
  ⟨twoDigits_ne_nil _, fun _ hc => not_space_of_isDigit (digit_of_twoDigits hc)⟩

theorem word_timeText : Word d.timeText := by
  refine ⟨by simp [timeText], fun c hc => ?_⟩
  rcases List.mem_append.mp hc with hc | hc
  · exact not_space_of_isDigit (digit_of_twoDigits hc)
  · rcases List.mem_cons.mp hc with rfl | hc
    · rfl
    · exact not_space_of_isDigit (digit_of_twoDigits hc)

end FileDate

-- What a directory holds beside the two dots.
structure DirEntry where
  name : QString
  isDir : Bool
  size : Nat
  date : FileDate
  name_ne_nil : name ≠ []
  one_line : '\n' ∉ name
  not_dot : name ≠ ['.']
  not_dots : name ≠ ['.', '.']
  size_lt : size < 2 ^ 63

namespace DirEntry

variable (e : DirEntry)

def info : FileInfo := ⟨e.name, e.isDir, e.size, e.date.text⟩

def perms : QString := (if e.isDir then 'd' else '-') :: "rw-r--r--".toList

theorem word_perms : Word e.perms := by
  rw [perms]
  cases e.isDir with
  | false => decide
  | true => decide

theorem word_size : Word (number e.size) :=
  ⟨number_ne_nil _, fun _ hc => not_space_of_isDigit (isDigit_of_mem_number hc)⟩

def columns : List Column :=
  [⟨e.perms, 0, e.word_perms⟩, ⟨"1", 0, word_one⟩,
    ⟨"owner", 0, word_owner⟩, ⟨"group", 12 - (number e.size).length, word_group⟩,
    ⟨number e.size, 0, e.word_size⟩, ⟨FileDate.monthName e.date.month, 0, FileDate.word_monthName _⟩,
    ⟨e.date.dayText, 0, e.date.word_dayText⟩]

def header : QString := e.columns.flatMap Column.text ++ e.date.timeText

theorem listLine_eq :
    Ftp.listLine e.info = e.header ++ ' ' :: e.name ++ ['\r'] ++ ['\n'] := by
  simp [Ftp.listLine, info, header, columns, Column.text, perms, Ftp.rightJustified,
    FileDate.text]

theorem header_eq : ∃ t, e.header = e.perms ++ ' ' :: t := by
  rw [header, columns, List.flatMap_cons, Column.text, List.append_assoc, List.append_assoc,
    List.cons_append]
  exact ⟨_, rfl⟩

theorem flush_header (t : QString) (h : ∀ c, t.getLast? = some c → isSpace c = false) :
    Flush (e.header ++ t) := by
  obtain ⟨u, hu⟩ := e.header_eq
  constructor
  · intro c hc
    rw [hu, List.append_assoc, List.head?_append_of_ne_nil _ e.word_perms.1] at hc
    exact e.word_perms.2 c (List.mem_of_head? hc)
  · intro c hc
    rcases List.eq_nil_or_concat t with rfl | ⟨t, d, rfl⟩
    · rw [List.append_nil, header, List.getLast?_append_of_ne_nil _ e.date.word_timeText.1] at hc
      exact e.date.word_timeText.2 c (List.mem_of_getLast? hc)
    · rw [List.getLast?_append_of_ne_nil _ (by simp)] at hc
      exact h c hc

theorem fields_header : FtpClient.fields e.header =
    e.columns.map Column.word ++ [e.date.timeText] := by
  rw [header, fields_columns, fields_word e.date.word_timeText]

theorem dropBom_header (t : QString) : dropBom (e.header ++ t) = e.header ++ t := by
  obtain ⟨u, hu⟩ := e.header_eq
  rw [hu, perms]
  cases e.isDir with
  | false => rfl
  | true => rfl

theorem length_units_perms : (units e.perms).length = 10 := by
  rw [perms]
  cases e.isDir with
  | false => decide
  | true => decide

theorem head?_perms : (e.perms.head? == some 'd') = e.isDir := by
  rw [perms]
  cases e.isDir with
  | false => decide
  | true => decide

-- What the client makes of an entry: its name without the white space around it.
def read : Option SftpEntry :=
  let name := trimmed e.name
  if name = [] ∨ name = ['.'] ∨ name = ['.', '.'] then none
  else some ⟨name, e.size.toUInt64, e.isDir, FtpClient.modeBits e.perms, 0⟩

theorem fields_line (text : QString) : FtpClient.fields (e.header ++ ' ' :: text) =
    e.columns.map Column.word ++ [e.date.timeText] ++ FtpClient.fields text := by
  rw [fields_append, fields_header]

theorem perms_line (text : QString) :
    (FtpClient.fields (e.header ++ ' ' :: text)).headD [] = e.perms := by
  rw [fields_line]
  rfl

theorem size_line (text : QString) :
    (FtpClient.fields (e.header ++ ' ' :: text)).getD 4 [] = number e.size := by
  rw [fields_line]
  rfl

theorem nine_fields {text : QString} (h : trimmed text ≠ []) :
    ¬ (FtpClient.fields (e.header ++ ' ' :: text)).length < 9 := by
  have hmore : 0 < (FtpClient.fields text).length := by
    obtain ⟨c, t, hc⟩ := List.exists_cons_of_ne_nil h
    have hspace : isSpace c = false := (flush_trimmed text).1 c (by rw [hc, List.head?_cons])
    have hmem : c ∈ text := trimmed_subset text (hc ▸ List.mem_cons_self)
    exact List.length_pos_of_ne_nil (fields_ne_nil hmem (not_regexSpace hspace))
  rw [fields_line, List.length_append]
  simp only [columns, List.map_cons, List.map_nil, List.length_append, List.length_cons,
    List.length_nil]
  omega

theorem name_line (text : QString) :
    FtpClient.afterFields 0 false (e.header ++ ' ' :: text) = some text :=
  afterFields_columns e.date.word_timeText (by rfl) false text

theorem trimmed_nameless {text : QString} (h : ∀ c ∈ text, isSpace c = true) :
    trimmed (e.header ++ ' ' :: text) = e.header := by
  have hheader := e.flush_header [] nofun
  rw [List.append_nil] at hheader
  rw [trimmed_back (List.forall_mem_cons.mpr ⟨rfl, h⟩), trimmed_flush hheader]

theorem trimmed_line {text : QString} (hne : text ≠ [])
    (h : ∀ c, text.getLast? = some c → isSpace c = false) :
    trimmed (e.header ++ ' ' :: text) = e.header ++ ' ' :: text :=
  trimmed_flush (e.flush_header _ fun c hc =>
    h c (by rwa [List.getLast?_cons_of_ne_nil hne] at hc))

theorem parseLine_entry :
    FtpClient.parseLine (toUtf8 (e.header ++ ' ' :: e.name ++ ['\r'])) = e.read := by
  obtain ⟨a, b, ha, hb, hname⟩ := exists_trimmed e.name
  have hbreak : ∀ c ∈ b ++ ['\r'], isSpace c = true := by
    intro c hc
    rcases List.mem_append.mp hc with hc | hc
    · exact hb c hc
    · obtain rfl := List.mem_singleton.mp hc
      rfl
  have hsplit : e.header ++ (' ' :: e.name ++ ['\r']) =
      e.header ++ ' ' :: (a ++ trimmed e.name) ++ (b ++ ['\r']) := by
    conv_lhs => rw [hname]
    simp
  have hname' : trimmed (a ++ trimmed e.name) = trimmed e.name := by
    rw [trimmed_front ha, trimmed_flush (flush_trimmed e.name)]
  rw [FtpClient.parseLine, fromUtf8_toUtf8, List.append_assoc, dropBom_header, hsplit,
    trimmed_back hbreak]
  by_cases hnil : trimmed e.name = []
  · rw [hnil, List.append_nil, e.trimmed_nameless ha, if_pos, read, if_pos (.inl hnil)]
    rw [fields_header]
    simp [columns]
  · have hlast : ∀ c, (a ++ trimmed e.name).getLast? = some c → isSpace c = false := by
      intro c hc
      rw [List.getLast?_append_of_ne_nil _ hnil] at hc
      exact getLast?_trimmed hc
    have hnumber : toULongLong (number e.size) = e.size.toUInt64 :=
      toULongLong_number (Nat.lt_trans e.size_lt (by decide))
    rw [e.trimmed_line (List.append_ne_nil_of_right_ne_nil a hnil) hlast,
      if_neg (e.nine_fields (hname'.symm ▸ hnil)), perms_line,
      if_neg (by simp [e.length_units_perms]), name_line, Option.getD_some, hname', size_line,
      hnumber, e.head?_perms, read]

theorem read_eq_some (h : trimmed e.name = e.name) :
    e.read = some ⟨e.name, e.size.toUInt64, e.isDir, FtpClient.modeBits e.perms, 0⟩ := by
  rw [read, h, if_neg]
  simp [e.name_ne_nil, e.not_dot, e.not_dots]

theorem length_read_le :
    (e.read.map (·.name.length)).getD 0 ≤ e.name.length ∧
      ((e.read.map (·.name.length)).getD 0 = e.name.length → trimmed e.name = e.name) := by
  have hle := (trimmed_sublist e.name).length_le
  have hpos := List.length_pos_of_ne_nil e.name_ne_nil
  rw [read]
  split
  · rw [Option.map_none, Option.getD_none]
    omega
  · exact ⟨hle, length_trimmed_eq⟩

theorem one_line_header : '\n' ∉ e.header ++ ' ' :: e.name ++ ['\r'] := by
  have hword {w : QString} (h : Word w) : '\n' ∉ w := by
    intro hc
    exact absurd (h.2 '\n' hc) (by decide)
  have hcolumns (cs : List Column) : '\n' ∉ cs.flatMap Column.text := by
    intro hc
    obtain ⟨c, -, hc⟩ := List.mem_flatMap.mp hc
    rcases List.mem_append.mp hc with hc | hc
    · exact hword c.valid hc
    · rcases List.mem_cons.mp hc with hc | hc
      · exact absurd hc (by decide)
      · exact absurd (List.eq_of_mem_replicate hc) (by decide)
  simp [header, hcolumns, hword e.date.word_timeText, e.one_line]

end DirEntry

def listing (dir : List DirEntry) : QByteArray := dir.flatMap fun e => toUtf8 (Ftp.listLine e.info)

-- The same entries, in any order.
def Kept (entries : List SftpEntry) (dir : List DirEntry) : Prop :=
  (entries.map fun e => (e.name, e.isDir, e.size.toNat)).Perm
    (dir.map fun e => (e.name, e.isDir, e.size))

theorem splitOn_listing (dir : List DirEntry) :
    (listing dir).splitOn 0x0A =
      dir.map (fun e => toUtf8 (e.header ++ ' ' :: e.name ++ ['\r'])) ++ [[]] := by
  induction dir with
  | nil => rfl
  | cons e dir ih =>
    have hbreak : ∀ b ∈ toUtf8 (e.header ++ ' ' :: e.name ++ ['\r']), (b == 0x0A) = false := by
      intro b hb
      rw [beq_eq_false_iff_ne]
      rintro rfl
      exact e.one_line_header ((@mem_toUtf8_ascii '\n' (by decide) _).mp hb)
    have hline : toUtf8 ['\n'] = [0x0A] := by decide
    rw [List.splitOn_eq_splitOnP] at ih ⊢
    rw [listing, List.flatMap_cons, e.listLine_eq, toUtf8_append _ ['\n'], hline,
      List.append_assoc, List.singleton_append,
      List.splitOnP_append_cons_of_forall_mem hbreak 0x0A rfl]
    exact congrArg _ ih

theorem length_names (dir : List DirEntry) :
    ((dir.filterMap DirEntry.read).flatMap (·.name)).length ≤ (dir.flatMap (·.name)).length ∧
      (((dir.filterMap DirEntry.read).flatMap (·.name)).length = (dir.flatMap (·.name)).length →
        ∀ e ∈ dir, trimmed e.name = e.name) := by
  induction dir with
  | nil => exact ⟨Nat.le_refl _, fun _ _ he => absurd he List.not_mem_nil⟩
  | cons e dir ih =>
    obtain ⟨hle, hname⟩ := e.length_read_le
    have hread : (((e :: dir).filterMap DirEntry.read).flatMap (·.name)).length =
        (e.read.map (·.name.length)).getD 0 +
          ((dir.filterMap DirEntry.read).flatMap (·.name)).length := by
      rw [List.filterMap_cons]
      cases e.read with
      | none => simp
      | some r => simp
    rw [hread, List.flatMap_cons, List.length_append, List.forall_mem_cons]
    refine ⟨Nat.add_le_add hle ih.1, fun h => ⟨hname ?_, ih.2 ?_⟩⟩
    · omega
    · omega

theorem kept_read_iff (dir : List DirEntry) :
    Kept (dir.filterMap DirEntry.read) dir ↔ ∀ e ∈ dir, trimmed e.name = e.name := by
  constructor
  · intro h
    have hlengths := (h.flatMap_right fun k => k.1).length_eq
    rw [List.flatMap_map, List.flatMap_map] at hlengths
    exact (length_names dir).2 hlengths
  · intro h
    have hread : dir.filterMap DirEntry.read = dir.map fun e =>
        ⟨e.name, e.size.toUInt64, e.isDir, FtpClient.modeBits e.perms, 0⟩ := by
      rw [← List.filterMap_eq_map]
      exact List.filterMap_congr fun e he => e.read_eq_some (h e he)
    rw [Kept, hread, List.map_map]
    refine List.Perm.of_eq (List.map_congr_left fun e _ => ?_)
    have hsize := e.size_lt
    simp only [Function.comp, Nat.toUInt64]
    rw [UInt64.toNat_ofNat_of_lt' (show e.size < 2 ^ 64 by omega)]

theorem parseLine_nil : FtpClient.parseLine [] = none := by decide

theorem kept_listing_iff (nameLess : QString → QString → Bool) (dir : List DirEntry) :
    Kept (FtpClient.parseFtpList nameLess (listing dir)) dir ↔
      ∀ e ∈ dir, trimmed e.name = e.name := by
  have hsort := sortListing_perm nameLess (dir.filterMap DirEntry.read)
  have hparse : FtpClient.parseFtpList nameLess (listing dir) =
      sortListing nameLess (dir.filterMap DirEntry.read) := by
    have hlines : (dir.map fun e => toUtf8 (e.header ++ ' ' :: e.name ++ ['\r'])).filterMap
        FtpClient.parseLine = dir.filterMap DirEntry.read := by
      rw [List.filterMap_map]
      refine List.filterMap_congr fun e _ => ?_
      rw [Function.comp, e.parseLine_entry]
    have hlast : ([[]] : List QByteArray).filterMap FtpClient.parseLine = [] := by
      simp only [List.filterMap_cons, parseLine_nil, List.filterMap_nil]
    rw [FtpClient.parseFtpList, splitOn_listing, List.filterMap_append, hlines, hlast,
      List.append_nil]
  rw [hparse, ← kept_read_iff]
  have hkeys := hsort.map fun e => (e.name, e.isDir, e.size.toNat)
  exact ⟨hkeys.symm.trans, hkeys.trans⟩

section Server

variable {σ : Type} {F : FileSystem σ} {s : Ftp.FtpServer} {conn : Ftp.Conn} {fs : σ}
  {net : Ftp.Network} {arg : QString} {dir : List DirEntry}

def listCommand (arg : QString) : Ftp.Command := ⟨"LIST", arg, true⟩

theorem list_data (hdir : F.entryInfoList fs (s.resolve conn arg) = dir.map DirEntry.info)
    (hdata : Ftp.acceptData conn net ≠ none) :
    (Ftp.execute F s conn fs net (listCommand arg)).data = some (listing dir) := by
  obtain ⟨sent, hsent⟩ := Option.ne_none_iff_exists'.mp hdata
  have hexecute : Ftp.execute F s conn fs net (listCommand arg) =
      Ftp.list F s conn fs net (listCommand arg) Ftp.listLine := rfl
  rw [hexecute, Ftp.list, listCommand, hdir, Ftp.transfer, hsent, List.flatMap_map]
  rfl

end Server

def newYear : FileDate := ⟨0, 0, 0, 0⟩

def twoWords : DirEntry where
  name := "two words"
  isDir := false
  size := 123
  date := newYear
  name_ne_nil := by decide
  one_line := by decide
  not_dot := by decide
  not_dots := by decide
  size_lt := by decide

def holding (dir : List DirEntry) : FileSystem PathStore :=
  { PathStore.fileSystem with entryInfoList := fun _ _ => dir.map DirEntry.info }

def listServer : Ftp.FtpServer := ⟨"/srv", "127.0.0.1", []⟩

def connected : Ftp.Conn := ⟨['/'], true, []⟩

def dataOpen : Ftp.Network := ⟨some 5000, some []⟩

def blankFirst : DirEntry where
  name := " notes"
  isDir := false
  size := 1
  date := newYear
  name_ne_nil := by decide
  one_line := by decide
  not_dot := by decide
  not_dots := by decide
  size_lt := by decide

end Sftp
