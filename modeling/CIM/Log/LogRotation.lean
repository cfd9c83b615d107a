import Mathlib.Data.List.Induction
import Mathlib.Data.List.Nodup
import CIM.Log.LogConfig

/-!
# Rotation of log files by time

`onCheck` runs once a second where an `IOManager` has time for it. It compares the calendar fields
of the clock with the ones it has stored, and renames the files whose period is over.
-/
namespace CIM.LogRotation

/-- Paths and names. -/
abbrev Text : Type := List Char

/-! ## Names -/

/-- `find_last_of`. -/
def findLastOf (p : Char → Bool) (s : Text) : Option Nat :=
  (s.reverse.findIdx? p).map fun i => s.length - 1 - i

def separator (c : Char) : Bool := c = '/' || c = '\\'

/-- `StringUtil::FilePath`. -/
def filePath (path : Text) : Text :=
  match findLastOf separator path with
  | some pos => path.take (pos + 1)
  | none => ['.', '/']

def fileNameExt (path : Text) : Text :=
  match findLastOf separator path with
  | some pos => if pos + 1 < path.length then path.drop (pos + 1) else path
  | none => path

def fileName (path : Text) : Text :=
  match findLastOf (· = '.') (fileNameExt path) with
  | some pos => if pos ≠ 0 then (fileNameExt path).take pos else fileNameExt path
  | none => fileNameExt path

def extension (path : Text) : Text :=
  match findLastOf (· = '.') (fileNameExt path) with
  | some pos => if pos ≠ 0 ∧ pos + 1 < path.length then (fileNameExt path).drop pos else []
  | none => []

/-- `%0wd`; a sign counts among the `w` characters. -/
def padded (w : Nat) (n : Int) : Text :=
  let digits := (toString n.natAbs).toList
  if n < 0 then '-' :: (List.replicate (w - 1 - digits.length) '0' ++ digits)
  else List.replicate (w - digits.length) '0' ++ digits

/-! ## The manager -/

/-- What `TimeUtil::Now` reads. -/
structure Time where
  year : Nat
  month : Nat
  day : Nat
  hour : Nat
  minute : Nat
  second : Nat

/-- The fields `m_lastYear` to `m_lastMinute`. -/
structure Last where
  year : Int
  month : Int
  day : Int
  hour : Int
  minute : Int

def Last.init : Last := ⟨-1, -1, -1, -1, -1⟩

def Last.ofTime (t : Time) : Last := ⟨t.year, t.month, t.day, t.hour, t.minute⟩

/-- `_YYYY-MM-DD`, `_YYYY-MM-DDTHH` and `_YYYY-MM-DDTHHMM`. -/
def dayStamp (t : Last) : Text :=
  '_' :: padded 4 t.year ++ '-' :: padded 2 t.month ++ '-' :: padded 2 t.day

def hourStamp (t : Last) : Text := dayStamp t ++ 'T' :: padded 2 t.hour

def minuteStamp (t : Last) : Text := hourStamp t ++ padded 2 t.minute

/-- The name under which a file is kept. -/
def keptName (path buf : Text) : Text := filePath path ++ fileName path ++ buf ++ extension path

/-- The clock at a check, `m_logs` by path and the sizes of the files. -/
structure Check where
  now : Time
  logs : List (Text × LogFile)
  once : (logs.map Prod.fst).Nodup
  fileSize : Text → Int

/-- `rotateMinute`, `rotateHours` and `rotateDays`: the call of `LogFile::rotate`, if any. -/
def rotateTo (c : Check) (buf path : Text) : List (Text × Text) :=
  if 0 < c.fileSize path then [(path, keptName path buf)] else []

/-- The body of the loop over `m_logs`. -/
def rotate (last : Last) (c : Check) (log : Text × LogFile) : List (Text × Text) :=
  let minute_change := last.minute != c.now.minute
  let hour_change := last.hour != c.now.hour
  let day_change := last.day != c.now.day
  (if minute_change ∧ log.2.m_rotateType = .MINUTE then rotateTo c (minuteStamp last) log.1
    else []) ++
    (if hour_change ∧ log.2.m_rotateType = .HOUR then rotateTo c (hourStamp last) log.1 else []) ++
    (if day_change ∧ log.2.m_rotateType = .DAY then rotateTo c (dayStamp last) log.1 else [])

/-- The fields it leaves and the files it renames. -/
def onCheck (last : Last) (c : Check) : Last × List (Text × Text) :=
  if last.year = -1 ∧ last.month = -1 ∧ last.day = -1 ∧ last.hour = -1 ∧ last.minute = -1 then
    (.ofTime c.now, [])
  else if last.day = c.now.day ∧ last.hour = c.now.hour ∧ last.minute = c.now.minute then (last, [])
  else (.ofTime c.now, c.logs.flatMap (rotate last c))

/-- The fields after the checks. -/
def lastAfter (cs : List Check) : Last := cs.foldl (fun last c => (onCheck last c).1) .init

/-! ## What is wanted -/

inductive Period
  | minute
  | hour
  | day

namespace Period

def rotateType : Period → RotateType
  | .minute => .MINUTE
  | .hour => .HOUR
  | .day => .DAY

def truncated : Period → Time → List Nat
  | .minute, t => [t.year, t.month, t.day, t.hour, t.minute]
  | .hour, t => [t.year, t.month, t.day, t.hour]
  | .day, t => [t.year, t.month, t.day]

/-- The field of the period itself. -/
def field : Period → Time → Nat
  | .minute, t => t.minute
  | .hour, t => t.hour
  | .day, t => t.day

def stamp : Period → Last → Text
  | .minute => minuteStamp
  | .hour => hourStamp
  | .day => dayStamp

/-- The stored field. -/
def stored : Period → Last → Int
  | .minute => Last.minute
  | .hour => Last.hour
  | .day => Last.day

end Period

/-- The file is registered for the period, and there is something in it. -/
def Registered (path : Text) (u : Period) (c : Check) : Prop :=
  (∃ f : LogFile, (path, f) ∈ c.logs ∧ f.m_rotateType = u.rotateType) ∧ 0 < c.fileSize path

/-- At every check but the first one, a file that is registered is renamed exactly if the period
is over, and to the name of the period that is. -/
def Right (path : Text) (u : Period) (cs : List Check) : Prop :=
  ∀ cs₁ prev c cs₂, cs = cs₁ ++ prev :: c :: cs₂ → Registered path u c →
    ∀ r, r = (onCheck (lastAfter (cs₁ ++ [prev])) c).2 →
      ((∃ new, (path, new) ∈ r) ↔ u.truncated prev.now ≠ u.truncated c.now) ∧
        ∀ new, (path, new) ∈ r → new = keptName path (u.stamp (.ofTime prev.now))

/-- The stored year and month are those of the time. -/
def Last.Dated (last : Last) (t : Time) : Prop := last.year = t.year ∧ last.month = t.month

/-- Of two checks in turn in different periods, the fields of the periods themselves differ, and
what the first one left is its own date. -/
def Told (path : Text) (u : Period) (cs : List Check) : Prop :=
  ∀ cs₁ prev c cs₂, cs = cs₁ ++ prev :: c :: cs₂ → Registered path u c →
    u.truncated prev.now = u.truncated c.now ∨
      u.field prev.now ≠ u.field c.now ∧ (lastAfter (cs₁ ++ [prev])).Dated prev.now

theorem lastAfter_append (cs : List Check) (c : Check) :
    lastAfter (cs ++ [c]) = (onCheck (lastAfter cs) c).1 := by
  rw [lastAfter, List.foldl_append]
  rfl

/-- A check that stores nothing finds the day, the hour and the minute as they are stored. -/
theorem onCheck_stored (last : Last) (c : Check) :
    (onCheck last c).1 = .ofTime c.now ∨ (onCheck last c).1 = last ∧ last.day = c.now.day ∧
      last.hour = c.now.hour ∧ last.minute = c.now.minute := by
  unfold onCheck
  split
  · exact .inl rfl
  · split
    · rename_i hsame
      exact .inr ⟨rfl, hsame⟩
    · exact .inl rfl

/-- The day, the hour and the minute are those of the check before. -/
theorem lastAfter_fields (cs : List Check) (prev : Check) :
    (lastAfter (cs ++ [prev])).day = prev.now.day ∧
      (lastAfter (cs ++ [prev])).hour = prev.now.hour ∧
      (lastAfter (cs ++ [prev])).minute = prev.now.minute := by
  rw [lastAfter_append]
  rcases onCheck_stored (lastAfter cs) prev with h | ⟨h, hsame⟩
  · rw [h]
    exact ⟨rfl, rfl, rfl⟩
  · rw [h]
    exact hsame

theorem rotate_path {last : Last} {c : Check} {log : Text × LogFile} :
    ∀ r ∈ rotate last c log, r.1 = log.1 := by
  have hto : ∀ buf, ∀ r ∈ rotateTo c buf log.1, r.1 = log.1 := by
    intro buf r hr
    unfold rotateTo at hr
    split at hr
    · rw [List.mem_singleton.mp hr]
    · cases hr
  have hif : ∀ (p : Prop) [Decidable p] buf, ∀ r ∈ (if p then rotateTo c buf log.1 else []),
      r.1 = log.1 := by
    intro p _ buf r hr
    split at hr
    · exact hto buf r hr
    · cases hr
  unfold rotate
  simp only [List.forall_mem_append]
  exact ⟨⟨hif _ _, hif _ _⟩, hif _ _⟩

/-- A file is rotated for its own period. -/
theorem rotate_eq {last : Last} {c : Check} {log : Text × LogFile} {u : Period}
    (hu : log.2.m_rotateType = u.rotateType) : rotate last c log =
      if u.stored last = u.field c.now then [] else rotateTo c (u.stamp last) log.1 := by
  unfold rotate
  rw [hu]
  cases u with
  | minute =>
      simp only [Period.rotateType, bne_iff_ne, reduceCtorEq, and_true, and_false, if_false,
        List.append_nil]
      exact ite_not ..
  | hour =>
      simp only [Period.rotateType, bne_iff_ne, reduceCtorEq, and_true, and_false, if_false,
        List.append_nil, List.nil_append]
      exact ite_not ..
  | day =>
      simp only [Period.rotateType, bne_iff_ne, reduceCtorEq, and_true, and_false, if_false,
        List.nil_append]
      exact ite_not ..

/-- Once there was a check, the files of a period are renamed where its field has changed. -/
theorem mem_onCheck {path : Text} {u : Period} {cs : List Check} {prev c : Check}
    (hreg : Registered path u c) (new : Text) :
    (path, new) ∈ (onCheck (lastAfter (cs ++ [prev])) c).2 ↔
      u.field prev.now ≠ u.field c.now ∧
        new = keptName path (u.stamp (lastAfter (cs ++ [prev]))) := by
  obtain ⟨hday, hhour, hminute⟩ := lastAfter_fields cs prev
  generalize lastAfter (cs ++ [prev]) = last at *
  have hstored : u.stored last = u.field prev.now := by
    cases u
    · exact hminute
    · exact hhour
    · exact hday
  obtain ⟨⟨f, hf, hu⟩, hsize⟩ := hreg
  unfold onCheck
  rw [if_neg (by omega)]
  split
  · rename_i hsame
    have hfield : u.field prev.now = u.field c.now := by
      cases u <;> simp only [Period.field] <;> omega
    exact iff_of_false List.not_mem_nil fun h => h.1 hfield
  · rw [List.mem_flatMap]
    have hown : (path, new) ∈ rotate last c (path, f) ↔
        u.field prev.now ≠ u.field c.now ∧ new = keptName path (u.stamp last) := by
      rw [rotate_eq hu, hstored, rotateTo, if_pos hsize]
      split
      · rename_i heq
        exact iff_of_false List.not_mem_nil fun h => h.1 (Int.ofNat_inj.mp heq)
      · rename_i hne
        rw [List.mem_singleton, Prod.mk.injEq]
        exact ⟨fun h => ⟨fun heq => hne (congrArg Nat.cast heq), h.2⟩, fun h => ⟨rfl, h.2⟩⟩
    rw [← hown]
    constructor
    · rintro ⟨log, hlog, hr⟩
      have hpath : path = log.1 := rotate_path _ hr
      rwa [List.inj_on_of_nodup_map c.once hlog hf hpath.symm] at hr
    · exact fun hr => ⟨_, hf, hr⟩

/-! ## Names tell the dates -/

theorem padded_natCast (w n : Nat) :
    padded w n = List.replicate (w - (Nat.toDigits 10 n).length) '0' ++ Nat.toDigits 10 n := by
  rw [padded, if_neg (by omega), Int.natAbs_natCast, Nat.toString_eq_repr, Nat.toList_repr]

theorem padded_injective {w m n : Nat} (h : padded w m = padded w n) : m = n := by
  have hvalue : ∀ k : Nat, Nat.ofDigitChars 10 (padded w k) 0 = k := by
    intro k
    rw [padded_natCast, Nat.ofDigitChars_append, Nat.ofDigitChars_replicate_zero, Nat.mul_zero,
      Nat.ofDigitChars_ten_toDigits]
  rw [← hvalue m, h, hvalue]

theorem dash_not_mem_padded (w n : Nat) : '-' ∉ padded w n := by
  rw [padded_natCast, List.mem_append]
  rintro (h | h)
  · exact absurd (List.eq_of_mem_replicate h) (by decide)
  · exact absurd (Nat.isDigit_of_mem_toDigits (by decide) (by decide) h) (by decide)

/-- The first dash ends the first part. -/
theorem dash_injective {s t rest rest' : Text} (hs : '-' ∉ s) (ht : '-' ∉ t)
    (h : s ++ '-' :: rest = t ++ '-' :: rest') : s = t ∧ rest = rest' := by
  have hfront : ∀ (r : Text) {u : Text}, '-' ∉ u → (u ++ '-' :: r).takeWhile (· != '-') = u := by
    intro r u hu
    rw [List.takeWhile_append_of_pos fun c hc => bne_iff_ne.mpr (ne_of_mem_of_not_mem hc hu),
      List.takeWhile_cons_of_neg (by decide), List.append_nil]
  have hst : s = t := by rw [← hfront rest hs, h, hfront rest' ht]
  subst hst
  exact ⟨rfl, (List.cons.inj (List.append_cancel_left h)).2⟩

/-- Every stamp begins with the year and the month. -/
theorem stamp_eq (u : Period) (last : Last) : ∃ rest, u.stamp last =
    '_' :: (padded 4 last.year ++ '-' :: (padded 2 last.month ++ '-' :: rest)) := by
  have hday : dayStamp last = '_' :: (padded 4 last.year ++ '-' ::
      (padded 2 last.month ++ '-' :: padded 2 last.day)) := by
    simp only [dayStamp, List.cons_append, List.append_assoc]
  cases u with
  | day => exact ⟨_, hday⟩
  | hour =>
      refine ⟨padded 2 last.day ++ 'T' :: padded 2 last.hour, ?_⟩
      rw [Period.stamp, hourStamp, hday]
      simp only [List.cons_append, List.append_assoc]
  | minute =>
      refine ⟨padded 2 last.day ++ 'T' :: padded 2 last.hour ++ padded 2 last.minute, ?_⟩
      rw [Period.stamp, minuteStamp, hourStamp, hday]
      simp only [List.cons_append, List.append_assoc]

theorem dated_of_stamp {u : Period} {s t : Time}
    (h : u.stamp (.ofTime s) = u.stamp (.ofTime t)) : (Last.ofTime s).Dated t := by
  obtain ⟨rest, hs⟩ := stamp_eq u (.ofTime s)
  obtain ⟨rest', ht⟩ := stamp_eq u (.ofTime t)
  rw [hs, ht, List.cons.injEq] at h
  obtain ⟨hyear, h⟩ := dash_injective (dash_not_mem_padded 4 s.year)
    (dash_not_mem_padded 4 t.year) h.2
  obtain ⟨hmonth, -⟩ := dash_injective (dash_not_mem_padded 2 s.month)
    (dash_not_mem_padded 2 t.month) h
  have hy : s.year = t.year := padded_injective (w := 4) (m := s.year) hyear
  have hm : s.month = t.month := padded_injective (w := 2) (m := s.month) hmonth
  exact ⟨congrArg Nat.cast hy, congrArg Nat.cast hm⟩

theorem stamp_of_keptName {path buf buf' : Text} (h : keptName path buf = keptName path buf') :
    buf = buf' :=
  List.append_cancel_left (List.append_cancel_right h)

/-- What is stored after a check is the time of a check. -/
theorem exists_lastAfter (cs : List Check) (prev : Check) :
    ∃ t, lastAfter (cs ++ [prev]) = .ofTime t := by
  induction cs using List.reverseRecOn generalizing prev with
  | nil => exact ⟨prev.now, rfl⟩
  | append_singleton cs p ih =>
      rw [lastAfter_append]
      rcases onCheck_stored (lastAfter (cs ++ [p])) prev with h | ⟨h, -⟩
      · exact ⟨prev.now, h⟩
      · rw [h]
        exact ih p

/-- With its date, all that is stored is that of the check before. -/
theorem lastAfter_of_dated {cs : List Check} {prev : Check}
    (h : (lastAfter (cs ++ [prev])).Dated prev.now) :
    lastAfter (cs ++ [prev]) = .ofTime prev.now := by
  obtain ⟨hday, hhour, hminute⟩ := lastAfter_fields cs prev
  cases hlast : lastAfter (cs ++ [prev]) with
  | mk year month day hour minute =>
      rw [hlast] at h hday hhour hminute
      rw [Last.ofTime, ← h.1, ← h.2, ← hday, ← hhour, ← hminute]

/-- The period's own field is the last one that is left. -/
theorem field_of_truncated {u : Period} {s t : Time} (h : u.truncated s = u.truncated t) :
    u.field s = u.field t := by
  have hfield : ∀ r, (u.truncated r).getLastD 0 = u.field r := by
    intro r
    cases u with
    | minute => rfl
    | hour => rfl
    | day => rfl
  rw [← hfield s, ← hfield t, h]

/-- Along every sequence of checks a file is renamed right exactly if the fields tell the periods
apart and the dates are not older than the times beside them. -/
theorem right_told_iff (path : Text) (u : Period) (cs : List Check) :
    Right path u cs ↔ Told path u cs := by
  constructor
  · intro h cs₁ prev c cs₂ hcs hreg
    obtain ⟨hiff, hname⟩ := h cs₁ prev c cs₂ hcs hreg _ rfl
    by_cases hsame : u.truncated prev.now = u.truncated c.now
    · exact .inl hsame
    · obtain ⟨new, hnew⟩ := hiff.mpr hsame
      have hstamp := hname new hnew
      obtain ⟨hne, rfl⟩ := (mem_onCheck hreg new).mp hnew
      obtain ⟨t, ht⟩ := exists_lastAfter cs₁ prev
      rw [ht] at hstamp
      exact .inr ⟨hne, ht ▸ dated_of_stamp (stamp_of_keptName hstamp)⟩
  · intro h cs₁ prev c cs₂ hcs hreg r hr
    subst hr
    simp only [mem_onCheck hreg]
    rcases h cs₁ prev c cs₂ hcs hreg with hsame | ⟨hne, hdated⟩
    · have hfield := field_of_truncated hsame
      exact ⟨iff_of_false (fun ⟨_, hne, _⟩ => hne hfield) fun hne => hne hsame,
        fun _ hnew => absurd hfield hnew.1⟩
    · refine ⟨iff_of_true ⟨_, hne, rfl⟩ (mt field_of_truncated hne), ?_⟩
      rintro new ⟨-, rfl⟩
      rw [lastAfter_of_dated hdated]

def hourFile : Text := ['a', '.', 'l']

/-- A check at twenty past three. -/
def at320 (day : Nat) : Check :=
  ⟨⟨2024, 5, day, 3, 20, 0⟩, [(hourFile, ⟨.HOUR, 0⟩)], List.nodup_singleton _, fun _ => 1⟩

theorem at320_registered (day : Nat) : Registered hourFile .hour (at320 day) :=
  ⟨⟨⟨.HOUR, 0⟩, List.mem_singleton_self _, rfl⟩, Int.one_pos⟩

/-- A day later the hour has the same number. -/
theorem hour_missed :
    (at320 7).now.day < (at320 8).now.day ∧ Registered hourFile .hour (at320 7) ∧
      Registered hourFile .hour (at320 8) ∧ ¬ Right hourFile .hour [at320 7, at320 8] := by
  refine ⟨by decide, at320_registered 7, at320_registered 8, fun h => ?_⟩
  obtain ⟨hiff, -⟩ := h [] (at320 7) (at320 8) [] rfl (at320_registered 8) _ rfl
  obtain ⟨new, hnew⟩ := hiff.mpr (by decide)
  exact absurd hnew (List.not_mem_nil (a := (hourFile, new)))

end CIM.LogRotation
