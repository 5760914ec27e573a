import LocalVault.Platform.FileMetadata

namespace LocalVault
open Library Snapshot

namespace Posix

variable {seconds nanoseconds t : Int64} {long : Width} {path path' : Path}

theorem perSecond_toInt : nanosecondsPerSecond.toInt = 1000000000 := by decide

theorem highest_second : (Int64.maxValue / nanosecondsPerSecond).toInt = 9223372036 := by decide

theorem lowest_second : (Int64.minValue / nanosecondsPerSecond).toInt = -9223372036 := by decide

theorem highest_toInt : Int64.maxValue.toInt = 9223372036854775807 := by decide

/-- The times that the guard in front of the multiplication lets through. -/
theorem guard_iff : (nanoseconds < 0 ∨ nanosecondsPerSecond ≤ nanoseconds ∨
      Int64.maxValue / nanosecondsPerSecond < seconds ∨
      seconds < Int64.minValue / nanosecondsPerSecond) ↔
    (nanoseconds.toInt < 0 ∨ 1000000000 ≤ nanoseconds.toInt ∨ 9223372036 < seconds.toInt ∨
      seconds.toInt < -9223372036) := by
  rw [Int64.lt_iff_toInt_lt, Int64.le_iff_toInt_le, Int64.lt_iff_toInt_lt, Int64.lt_iff_toInt_lt,
    perSecond_toInt, highest_second, lowest_second, Int64.toInt_zero]

/-- No operation overflows, and what is accepted is exact. -/
theorem nanosecondsSinceEpoch_spec (seconds nanoseconds : Int64) (path : Path) :
    ∃ r, nanosecondsSinceEpoch seconds nanoseconds path = some r ∧
      ∀ t, r = .ok t ↔ 0 ≤ nanoseconds.toInt ∧ nanoseconds.toInt < 1000000000 ∧
        -9223372036 ≤ seconds.toInt ∧
        t.toInt = seconds.toInt * 1000000000 + nanoseconds.toInt := by
  unfold nanosecondsSinceEpoch
  split
  · rename_i hguard
    rw [guard_iff] at hguard
    refine ⟨_, rfl, fun t => ⟨nofun, fun ⟨hlow, hhigh, hfirst, hsum⟩ => ?_⟩⟩
    have ht := toInt_range t
    omega
  · rename_i hguard
    rw [guard_iff] at hguard
    obtain ⟨whole, hwhole, hproduct⟩ := signed_fits
      (v := seconds.toInt * nanosecondsPerSecond.toInt)
      (by rw [perSecond_toInt]; omega) (by rw [perSecond_toInt]; omega)
    obtain ⟨room, hroom, hdifference⟩ := signed_fits
      (v := Int64.maxValue.toInt - nanoseconds.toInt)
      (by rw [highest_toInt]; omega) (by rw [highest_toInt]; omega)
    rw [perSecond_toInt] at hproduct
    rw [highest_toInt] at hdifference
    rw [hwhole, Option.bind_eq_bind, Option.bind_some, hroom, Option.bind_some]
    split
    · rename_i hover
      rw [Int64.lt_iff_toInt_lt, hdifference, hproduct] at hover
      refine ⟨_, rfl, fun t => ⟨nofun, fun ⟨hlow, hhigh, hfirst, hsum⟩ => ?_⟩⟩
      have ht := toInt_range t
      omega
    · rename_i hover
      rw [Int64.lt_iff_toInt_lt, hdifference, hproduct] at hover
      obtain ⟨sum, hsum, hexact⟩ := signed_fits (v := whole.toInt + nanoseconds.toInt)
        (by omega) (by omega)
      rw [hsum, Option.bind_some]
      refine ⟨_, rfl, fun t => ?_⟩
      rw [Except.ok.injEq, ← Int64.toInt_inj, hexact, hproduct]
      omega

theorem captured_iff : nanosecondsSinceEpoch seconds nanoseconds path = some (.ok t) ↔
    0 ≤ nanoseconds.toInt ∧ nanoseconds.toInt < 1000000000 ∧ -9223372036 ≤ seconds.toInt ∧
      t.toInt = seconds.toInt * 1000000000 + nanoseconds.toInt := by
  obtain ⟨r, hr, hspec⟩ := nanosecondsSinceEpoch_spec seconds nanoseconds path
  rw [hr, Option.some.injEq]
  exact hspec t

theorem quotient_toInt (t : Int64) :
    (t / nanosecondsPerSecond).toInt = t.toInt.tdiv 1000000000 := by
  rw [Int64.toInt_div_of_ne_right _ _ (by decide), perSecond_toInt]

theorem remainder_toInt (t : Int64) :
    (t % nanosecondsPerSecond).toInt = t.toInt.tmod 1000000000 := by
  rw [Int64.toInt_mod, perSecond_toInt]

/-- The cast of the nanoseconds of a second loses nothing. -/
theorem cast_nanoseconds {v : Int64} (hlow : 0 ≤ v.toInt) (hhigh : v.toInt < 1000000000) :
    long.cast v = v := by
  cases long with
  | bits32 =>
    unfold Width.cast
    rw [← Int64.toInt_inj, Int32.toInt_toInt64, Int64.toInt_toInt32]
    exact Int.bmod_eq_of_le (by omega) (by omega)
  | bits64 => rfl

/-- A time is taken apart into whole seconds, rounded down, and what is left. -/
theorem restoredModificationTime_spec (long : Width) (t : Int64) (path : Path) :
    ∃ seconds nanoseconds : Int64,
      restoredModificationTime .bits64 long t path = some (.ok ⟨seconds, nanoseconds⟩) ∧
      seconds.toInt = t.toInt / 1000000000 ∧ nanoseconds.toInt = t.toInt % 1000000000 := by
  have ht := toInt_range t
  have hquotient := quotient_toInt t
  have hremainder := remainder_toInt t
  have hwhole := Int.mul_tdiv_add_tmod t.toInt 1000000000
  have hbelow : t.toInt.tmod 1000000000 < 1000000000 := Int.tmod_lt_of_pos _ (by decide)
  have habove : -1000000000 < t.toInt.tmod 1000000000 := Int.lt_tmod_of_pos _ (by decide)
  unfold restoredModificationTime
  dsimp only
  by_cases hnegative : t % nanosecondsPerSecond < 0
  · have hbefore := hnegative
    rw [Int64.lt_iff_toInt_lt, hremainder, Int64.toInt_zero] at hbefore
    obtain ⟨seconds, hs, hseconds⟩ := signed_fits
      (v := (t / nanosecondsPerSecond).toInt - 1) (by omega) (by omega)
    obtain ⟨nanoseconds, hn, hnanoseconds⟩ := signed_fits
      (v := (t % nanosecondsPerSecond).toInt + nanosecondsPerSecond.toInt)
      (by rw [perSecond_toInt]; omega) (by rw [perSecond_toInt]; omega)
    rw [perSecond_toInt] at hnanoseconds
    refine ⟨seconds, nanoseconds, ?_, by omega, by omega⟩
    simp only [if_pos hnegative, hs, hn, Option.bind_eq_bind, Option.bind_some]
    have hcast : long.cast nanoseconds = nanoseconds := cast_nanoseconds (by omega) (by omega)
    rw [hcast]
    exact if_neg (fun hne => hne rfl)
  · have hbehind := hnegative
    rw [Int64.lt_iff_toInt_lt, hremainder, Int64.toInt_zero] at hbehind
    refine ⟨t / nanosecondsPerSecond, t % nanosecondsPerSecond, ?_, by omega, by omega⟩
    simp only [if_neg hnegative, Option.bind_eq_bind, Option.bind_some]
    have hcast : long.cast (t % nanosecondsPerSecond) = t % nanosecondsPerSecond :=
      cast_nanoseconds (by omega) (by omega)
    rw [hcast]
    exact if_neg (fun hne => hne rfl)

/-- A captured time is restored as the pair it was captured from. -/
theorem captured_restored (h : nanosecondsSinceEpoch seconds nanoseconds path = some (.ok t))
    (long : Width) (path' : Path) :
    restoredModificationTime .bits64 long t path' = some (.ok ⟨seconds, nanoseconds⟩) := by
  obtain ⟨hlow, hhigh, -, hexact⟩ := captured_iff.mp h
  obtain ⟨s, n, hrestored, hs, hn⟩ := restoredModificationTime_spec long t path'
  have hseconds : s = seconds := Int64.toInt_inj.mp (by omega)
  have hnanoseconds : n = nanoseconds := Int64.toInt_inj.mp (by omega)
  rw [hrestored, hseconds, hnanoseconds]

end Posix

namespace Win32

variable {time : Filetime} {t : Int64} {path : Path}

theorem epoch_toNat : windowsToUnixEpochTicks.toNat = 116444736000000000 := by decide

theorem maximum_toNat : Int64.maxValue.toUInt64.toNat = 9223372036854775807 := by decide

theorem perTick_toNat : UInt64.toNat 100 = 100 := by decide

theorem highest_tick : (Int64.maxValue.toUInt64 / 100).toNat = 92233720368547758 := by decide

theorem ticks_toNat (time : Filetime) :
    time.ticks.toNat = time.highDateTime.toNat * 2 ^ 32 + time.lowDateTime.toNat := by
  have hlow := time.lowDateTime.toNat_lt
  have hhigh := time.highDateTime.toNat_lt
  have hshift : (time.highDateTime.toUInt64 <<< 32).toNat = time.highDateTime.toNat <<< 32 := by
    rw [UInt64.toNat_shiftLeft, UInt32.toNat_toUInt64]
    refine Nat.mod_eq_of_lt ?_
    rw [show UInt64.toNat 32 % 64 = 32 from rfl, Nat.shiftLeft_eq]
    omega
  unfold Filetime.ticks
  rw [UInt64.toNat_or, hshift, UInt32.toNat_toUInt64, ← Nat.shiftLeft_add_eq_or_of_lt hlow,
    Nat.shiftLeft_eq]

/-- The two halves of the ticks are those of the time. -/
theorem halves_ticks (time : Filetime) :
    (⟨(time.ticks &&& 0xFFFFFFFF).toUInt32, (time.ticks >>> 32).toUInt32⟩ : Filetime) = time := by
  have hlow := time.lowDateTime.toNat_lt
  have hhigh := time.highDateTime.toNat_lt
  have hticks := ticks_toNat time
  have hfirst : (time.ticks &&& 0xFFFFFFFF).toUInt32 = time.lowDateTime := by
    rw [← UInt32.toNat_inj, UInt64.toNat_toUInt32, UInt64.toNat_and,
      show UInt64.toNat 0xFFFFFFFF = 2 ^ 32 - 1 from rfl, Nat.and_two_pow_sub_one_eq_mod]
    omega
  have hsecond : (time.ticks >>> 32).toUInt32 = time.highDateTime := by
    rw [← UInt32.toNat_inj, UInt64.toNat_toUInt32, UInt64.toNat_shiftRight,
      show UInt64.toNat 32 % 64 = 32 from rfl, Nat.shiftRight_eq_div_pow]
    omega
  rw [hfirst, hsecond]

/-- No operation wraps, and what is accepted is exact. -/
theorem unixTimeNanoseconds_spec (time : Filetime) (path : Path) :
    ∃ r, unixTimeNanoseconds time path = some r ∧
      ∀ t, r = .ok t → t.toInt = ((time.ticks.toNat : Int) - 116444736000000000) * 100 := by
  have hticks := time.ticks.toNat_lt
  have hepoch := epoch_toNat
  unfold unixTimeNanoseconds
  dsimp only
  split
  · rename_i hbehind
    rw [UInt64.le_iff_toNat_le, hepoch] at hbehind
    obtain ⟨unixTicks, hunix, hdistance⟩ := unsigned_fits
      (v := (time.ticks.toNat : Int) - windowsToUnixEpochTicks.toNat) (by omega) (by omega)
    rw [hepoch] at hdistance
    rw [hunix, Option.bind_eq_bind, Option.bind_some]
    split
    · exact ⟨_, rfl, nofun⟩
    · rename_i hfits
      rw [UInt64.lt_iff_toNat_lt, highest_tick] at hfits
      obtain ⟨value, hvalue, hproduct⟩ := unsigned_fits
        (v := (unixTicks.toNat : Int) * UInt64.toNat 100)
        (by rw [perTick_toNat]; omega) (by rw [perTick_toNat]; omega)
      rw [perTick_toNat] at hproduct
      obtain ⟨result, hresult, hexact⟩ := signed_fits (v := (value.toNat : Int))
        (by omega) (by omega)
      refine ⟨.ok result, Option.bind_eq_some_iff.mpr ⟨value, hvalue,
        Option.bind_eq_some_iff.mpr ⟨result, hresult, rfl⟩⟩, fun t ht => ?_⟩
      cases ht
      omega
  · rename_i hbefore
    rw [UInt64.le_iff_toNat_le, hepoch] at hbefore
    obtain ⟨ticksBefore, hunix, hdistance⟩ := unsigned_fits
      (v := (windowsToUnixEpochTicks.toNat : Int) - time.ticks.toNat) (by omega) (by omega)
    rw [hepoch] at hdistance
    obtain ⟨magnitudeLimit, hlimit, hminimum⟩ := unsigned_fits
      (v := (Int64.maxValue.toUInt64.toNat : Int) + 1)
      (by rw [maximum_toNat]; decide) (by rw [maximum_toNat]; decide)
    rw [maximum_toNat] at hminimum
    rw [hunix, Option.bind_eq_bind, Option.bind_some, hlimit, Option.bind_some]
    split
    · exact ⟨_, rfl, nofun⟩
    · rename_i hfits
      rw [UInt64.lt_iff_toNat_lt, UInt64.toNat_div, perTick_toNat] at hfits
      obtain ⟨magnitude, hmagnitude, hproduct⟩ := unsigned_fits
        (v := (ticksBefore.toNat : Int) * UInt64.toNat 100)
        (by rw [perTick_toNat]; omega) (by rw [perTick_toNat]; omega)
      rw [perTick_toNat] at hproduct
      rw [hmagnitude, Option.bind_some]
      split
      · -- the magnitude of the lowest time is no whole number of ticks
        rename_i hsame
        rw [hsame] at hproduct
        omega
      · obtain ⟨value, hvalue, hcast⟩ := signed_fits (v := (magnitude.toNat : Int))
          (by omega) (by omega)
        obtain ⟨result, hresult, hexact⟩ := signed_fits (v := -value.toInt) (by omega) (by omega)
        refine ⟨.ok result, Option.bind_eq_some_iff.mpr ⟨value, hvalue,
          Option.bind_eq_some_iff.mpr ⟨result, hresult, rfl⟩⟩, fun t ht => ?_⟩
        cases ht
        omega

/-- Every time is restored, to the tick below it towards the epoch. -/
theorem restoredFiletime_spec (t : Int64) : ∃ windowsTicks : UInt64,
    restoredFiletime t = some
      ⟨(windowsTicks &&& 0xFFFFFFFF).toUInt32, (windowsTicks >>> 32).toUInt32⟩ ∧
    (windowsTicks.toNat : Int) = 116444736000000000 + t.toInt.tdiv 100 := by
  have ht := toInt_range t
  have hepoch := epoch_toNat
  have hquotient : (t / 100).toInt = t.toInt.tdiv 100 :=
    Int64.toInt_div_of_ne_right _ _ (by decide)
  have hwhole := Int.mul_tdiv_add_tmod t.toInt 100
  have hbelow : t.toInt.tmod 100 < 100 := Int.tmod_lt_of_pos _ (by decide)
  have habove : -100 < t.toInt.tmod 100 := Int.lt_tmod_of_pos _ (by decide)
  unfold restoredFiletime
  dsimp only
  by_cases hsign : 0 ≤ t / 100
  · have hforward := hsign
    rw [Int64.le_iff_toInt_le, hquotient, Int64.toInt_zero] at hforward
    obtain ⟨forward, hf, hcast⟩ := unsigned_fits (v := (t / 100).toInt) (by omega) (by omega)
    obtain ⟨ticks, hticks, hsum⟩ := unsigned_fits
      (v := (windowsToUnixEpochTicks.toNat : Int) + forward.toNat) (by omega) (by omega)
    refine ⟨ticks, ?_, by omega⟩
    rw [if_pos hsign]
    refine Option.bind_eq_some_iff.mpr ⟨forward, hf, ?_⟩
    exact Option.bind_eq_some_iff.mpr ⟨ticks, hticks, rfl⟩
  · have hback := hsign
    rw [Int64.le_iff_toInt_le, hquotient, Int64.toInt_zero] at hback
    obtain ⟨next, hn, hnext⟩ := signed_fits (v := (t / 100).toInt + 1) (by omega) (by omega)
    obtain ⟨negated, hm, hnegated⟩ := signed_fits (v := -next.toInt) (by omega) (by omega)
    obtain ⟨below, hb, hcast⟩ := unsigned_fits (v := negated.toInt) (by omega) (by omega)
    obtain ⟨back, hk, hdistance⟩ := unsigned_fits (v := (below.toNat : Int) + 1)
      (by omega) (by omega)
    obtain ⟨ticks, hticks, hdifference⟩ := unsigned_fits
      (v := (windowsToUnixEpochTicks.toNat : Int) - back.toNat) (by omega) (by omega)
    refine ⟨ticks, ?_, by omega⟩
    rw [if_neg hsign]
    refine Option.bind_eq_some_iff.mpr ⟨next, hn, ?_⟩
    refine Option.bind_eq_some_iff.mpr ⟨negated, hm, ?_⟩
    refine Option.bind_eq_some_iff.mpr ⟨below, hb, ?_⟩
    refine Option.bind_eq_some_iff.mpr ⟨back, hk, ?_⟩
    exact Option.bind_eq_some_iff.mpr ⟨ticks, hticks, rfl⟩

/-- A captured time is restored as the time it was captured from. -/
theorem captured_restored (h : unixTimeNanoseconds time path = some (.ok t)) :
    restoredFiletime t = some time := by
  obtain ⟨r, hr, hexact⟩ := unixTimeNanoseconds_spec time path
  rw [hr, Option.some.injEq] at h
  obtain ⟨ticks, hrestored, hticks⟩ := restoredFiletime_spec t
  rw [hexact t h, Int.mul_tdiv_cancel _ (by decide)] at hticks
  have hsame : ticks = time.ticks := UInt64.toNat_inj.mp (by omega)
  rw [hrestored, hsame, halves_ticks]

end Win32

/-- Neither platform loses anything of a modification time that it captures: no operation
overflows or wraps, and what is captured is restored as it was. -/
theorem times_lossless :
    (∀ (seconds nanoseconds : Int64) (path : Path), ∃ captured,
      Posix.nanosecondsSinceEpoch seconds nanoseconds path = some captured ∧
      ∀ t, captured = .ok t →
        t.toInt = seconds.toInt * 1000000000 + nanoseconds.toInt ∧
        0 ≤ nanoseconds.toInt ∧ nanoseconds.toInt < 1000000000 ∧
        ∀ (long : Posix.Width) (path' : Path),
          Posix.restoredModificationTime .bits64 long t path' =
            some (.ok ⟨seconds, nanoseconds⟩)) ∧
    ∀ (time : Win32.Filetime) (path : Path), ∃ captured,
      Win32.unixTimeNanoseconds time path = some captured ∧
      ∀ t, captured = .ok t →
        t.toInt = ((time.ticks.toNat : Int) - Win32.windowsToUnixEpochTicks.toNat) * 100 ∧
        Win32.restoredFiletime t = some time := by
  refine ⟨fun seconds nanoseconds path => ?_, fun time path => ?_⟩
  · obtain ⟨r, hr, hspec⟩ := Posix.nanosecondsSinceEpoch_spec seconds nanoseconds path
    refine ⟨r, hr, fun t ht => ?_⟩
    obtain ⟨hlow, hhigh, -, hexact⟩ := (hspec t).mp ht
    exact ⟨hexact, hlow, hhigh, Posix.captured_restored (hr.trans (congrArg some ht))⟩
  · obtain ⟨r, hr, hexact⟩ := Win32.unixTimeNanoseconds_spec time path
    refine ⟨r, hr, fun t ht => ?_⟩
    rw [Win32.epoch_toNat]
    exact ⟨hexact t ht, Win32.captured_restored (hr.trans (congrArg some ht))⟩

/-- A time before 1970 on either platform. -/
theorem times_lossless_before_epoch :
    Posix.restoredModificationTime .bits64 .bits64 (-1) [] = some (.ok ⟨-1, 999999999⟩) ∧
      Win32.restoredFiletime (-100) = some ⟨0xD53E7FFF, 0x19DB1DE⟩ := by
  obtain ⟨posix, hposix, hpair⟩ := times_lossless.1 (-1) 999999999 []
  obtain ⟨win32, hwin32, htime⟩ := times_lossless.2 ⟨0xD53E7FFF, 0x19DB1DE⟩ []
  have hseconds : Posix.nanosecondsSinceEpoch (-1) 999999999 [] = some (.ok (-1)) := by
    decide +kernel
  have hticks : Win32.unixTimeNanoseconds ⟨0xD53E7FFF, 0x19DB1DE⟩ [] = some (.ok (-100)) := by
    decide +kernel
  rw [hposix, Option.some.injEq] at hseconds
  rw [hwin32, Option.some.injEq] at hticks
  exact ⟨(hpair (-1) hseconds).2.2.2 .bits64 [], (htime (-100) hticks).2⟩

/-- On POSIX a restored time can be captured again, unless it lies in the second in which the
lowest 64-bit integer does. -/
theorem restored_time_captured (long : Posix.Width) (t : Int64) (path path' : Path) :
    ∃ restored : Posix.Timespec,
      Posix.restoredModificationTime .bits64 long t path = some (.ok restored) ∧
      (Posix.nanosecondsSinceEpoch restored.seconds restored.nanoseconds path' = some (.ok t) ↔
        -9223372036000000000 ≤ t.toInt) ∧
      ∀ (information : Posix.Stat) (changed : Int64), information.modified = restored →
        0 ≤ information.size → Posix.nanosecondsSinceEpoch information.changed.seconds
          information.changed.nanoseconds path' = some (.ok changed) →
        ((∃ m, Posix.readPlatformFileMetadataNoFollow (.ok information) path' = some (.ok m) ∧
            m.modifiedTimeNs = t.toInt) ↔ -9223372036000000000 ≤ t.toInt) := by
  obtain ⟨seconds, nanoseconds, hrestored, hs, hn⟩ :=
    Posix.restoredModificationTime_spec long t path
  have hcaptured : Posix.nanosecondsSinceEpoch seconds nanoseconds path' = some (.ok t) ↔
      -9223372036000000000 ≤ t.toInt := by
    rw [Posix.captured_iff]
    omega
  refine ⟨⟨seconds, nanoseconds⟩, hrestored, hcaptured, ?_⟩
  intro information changed hmodified hsize hchanged
  have hsize : ¬ information.size < 0 := by
    rw [Int64.lt_iff_toInt_lt]
    rw [Int64.le_iff_toInt_le] at hsize
    omega
  obtain ⟨r, hr, hspec⟩ := Posix.nanosecondsSinceEpoch_spec seconds nanoseconds path'
  rw [← hcaptured, hr]
  unfold Posix.readPlatformFileMetadataNoFollow
  dsimp only
  rw [if_neg hsize, hmodified, hr, hchanged, Option.bind_eq_bind, Option.bind_some]
  cases r with
  | error e =>
    constructor
    · rintro ⟨m, hm, -⟩
      cases hm
    · intro h
      cases h
  | ok t' =>
    constructor
    · rintro ⟨m, hm, ht⟩
      cases hm
      rw [Int64.toInt_inj.mp ht]
    · intro h
      cases h
      exact ⟨_, rfl, rfl⟩

/-- The lowest time that a FILETIME can be captured as is restored on POSIX, and refused there. -/
theorem restored_time_refused :
    Win32.unixTimeNanoseconds ⟨0x5A5D3852, 0x5603CA⟩ [] =
      some (.ok (-9223372036854775800)) ∧
    Posix.restoredModificationTime .bits64 .bits64 (-9223372036854775800) [] =
      some (.ok ⟨-9223372037, 145224200⟩) ∧
    Posix.nanosecondsSinceEpoch (-9223372037) 145224200 [] =
      some (.error (fileMetadataError
        "file modification time is outside the supported range" [])) := by
  decide +kernel

/-- The time of the moon landing, in a file of three bytes. -/
theorem restored_time_captured_1969 : ∃ m,
    Posix.readPlatformFileMetadataNoFollow
      (.ok ⟨3, ⟨-14182940, 500000000⟩, ⟨1700000000, 1⟩, 1, 2, 0o100644⟩) [] = some (.ok m) ∧
    m.modifiedTimeNs = -14182939500000000 := by
  obtain ⟨restored, hrestored, -, hread⟩ :=
    restored_time_captured .bits64 (-14182939500000000) [] []
  have hpair : Posix.restoredModificationTime .bits64 .bits64 (-14182939500000000) [] =
      some (.ok ⟨-14182940, 500000000⟩) := by
    decide +kernel
  rw [hrestored, Option.some.injEq, Except.ok.injEq] at hpair
  have hchanged : Posix.nanosecondsSinceEpoch 1700000000 1 [] = some (.ok 1700000000000000001) := by
    decide +kernel
  exact (hread ⟨3, ⟨-14182940, 500000000⟩, ⟨1700000000, 1⟩, 1, 2, 0o100644⟩ _ hpair.symm
    (by decide) hchanged).mpr (by decide)

end LocalVault
