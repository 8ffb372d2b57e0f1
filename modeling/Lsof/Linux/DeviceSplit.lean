import Lsof.Core.Endpoints
import Lsof.Linux.Devices

/-! # Taking device numbers apart

Three places read the two numbers out of a packed one: the DEVICE column, the
hash of a path item and the pairing of pseudoterminals. Each has shifts and
masks of its own; here all three are the same quotients and remainders.
-/

namespace Lsof.Linux

open Lsof.Basis

def devMajor (dev : BitVec 64) : BitVec 64 :=
  ((dev >>> 8) &&& 0xfff#64) ||| ((dev >>> 32) &&& ~~~0xfff#64)

def devMinor (dev : BitVec 64) : BitVec 64 :=
  (dev &&& 0xff#64) ||| ((dev >>> 12) &&& 0xffffff00#64)

def devString (dev : BitVec 64) : Text :=
  Text.ofNat (devMajor dev).toNat ++ ',' :: Text.ofNat (devMinor dev).toNat

theorem or_masked {low high : Nat} {k : Nat} (h : low < 2 ^ k) : low ||| high * 2 ^ k = high * 2 ^ k + low := by
  rw [Nat.lor_comm, Nat.mul_comm]
  exact (Nat.two_pow_add_eq_or_of_lt h high).symm

theorem toNat_devMajor (dev : BitVec 64) :
    (devMajor dev).toNat = dev.toNat / 2 ^ 44 * 2 ^ 12 + dev.toNat / 2 ^ 8 % 2 ^ 12 := by
  have hdev := dev.isLt
  have hlow : dev.toNat / 2 ^ 8 &&& 0xfff = dev.toNat / 2 ^ 8 % 2 ^ 12 := Nat.and_two_pow_sub_one_eq_mod _ 12
  have hhigh : dev.toNat / 2 ^ 32 &&& 0xfffffffffffff000 = dev.toNat / 2 ^ 44 * 2 ^ 12 := by
    rw [show (0xfffffffffffff000 : Nat) = (2 ^ 52 - 1) <<< 12 from rfl, and_mask]
    omega
  have hparts : (devMajor dev).toNat =
      (dev.toNat / 2 ^ 8 &&& 0xfff) ||| (dev.toNat / 2 ^ 32 &&& 0xfffffffffffff000) := by
    rw [← Nat.shiftRight_eq_div_pow, ← Nat.shiftRight_eq_div_pow]
    rfl
  rw [hparts, hlow, hhigh]
  exact or_masked (Nat.mod_lt _ (by omega))

theorem toNat_devMinor (dev : BitVec 64) :
    (devMinor dev).toNat = dev.toNat / 2 ^ 20 % 2 ^ 24 * 2 ^ 8 + dev.toNat % 2 ^ 8 := by
  have hlow : dev.toNat &&& 0xff = dev.toNat % 2 ^ 8 := Nat.and_two_pow_sub_one_eq_mod _ 8
  have hhigh : dev.toNat / 2 ^ 12 &&& 0xffffff00 = dev.toNat / 2 ^ 20 % 2 ^ 24 * 2 ^ 8 := by
    rw [show (0xffffff00 : Nat) = (2 ^ 24 - 1) <<< 8 from rfl, and_mask]
    omega
  have hparts : (devMinor dev).toNat = (dev.toNat &&& 0xff) ||| (dev.toNat / 2 ^ 12 &&& 0xffffff00) := by
    rw [← Nat.shiftRight_eq_div_pow]
    rfl
  rw [hparts, hlow, hhigh]
  exact or_masked (Nat.mod_lt _ (by omega))

def packed (p : BitVec 32 × BitVec 32) : BitVec 64 := BitVec.ofNat 64 (makedev p.1.toNat p.2.toNat)

/-- The pair the DEVICE column is written from. -/
def devSplit (dev : BitVec 64) : BitVec 64 × BitVec 64 := (devMajor dev, devMinor dev)

def widened (p : BitVec 32 × BitVec 32) : BitVec 64 × BitVec 64 := (p.1.setWidth 64, p.2.setWidth 64)

theorem toNat_packed (p : BitVec 32 × BitVec 32) : (packed p).toNat = makedev p.1.toNat p.2.toNat := by
  have hmajor := p.1.isLt
  have hminor := p.2.isLt
  rw [packed, BitVec.toNat_ofNat]
  apply Nat.mod_eq_of_lt
  rw [makedev_eq hmajor hminor]
  omega

theorem devSplit_packed (p : BitVec 32 × BitVec 32) : devSplit (packed p) = widened p := by
  have hmajor := p.1.isLt
  have hminor := p.2.isLt
  have hpacked := toNat_packed p
  rw [makedev_eq hmajor hminor] at hpacked
  apply Prod.ext
  · apply BitVec.eq_of_toNat_eq
    have hwide : (widened p).1.toNat = p.1.toNat := BitVec.toNat_setWidth_of_le (by omega)
    rw [hwide]
    change (devMajor (packed p)).toNat = _
    rw [toNat_devMajor]
    omega
  · apply BitVec.eq_of_toNat_eq
    have hwide : (widened p).2.toNat = p.2.toNat := BitVec.toNat_setWidth_of_le (by omega)
    rw [hwide]
    change (devMinor (packed p)).toNat = _
    rw [toNat_devMinor]
    omega

theorem packed_devSplit (dev : BitVec 64) :
    packed ((devMajor dev).setWidth 32, (devMinor dev).setWidth 32) = dev := by
  have hdev := dev.isLt
  have hmajor := toNat_devMajor dev
  have hminor := toNat_devMinor dev
  have hnarrowMajor : ((devMajor dev).setWidth 32).toNat = (devMajor dev).toNat := by
    rw [BitVec.toNat_setWidth]
    omega
  have hnarrowMinor : ((devMinor dev).setWidth 32).toNat = (devMinor dev).toNat := by
    rw [BitVec.toNat_setWidth]
    omega
  apply BitVec.eq_of_toNat_eq
  rw [toNat_packed, hnarrowMajor, hnarrowMinor, makedev_eq (by omega) (by omega)]
  omega

theorem packed_bijective : Function.Bijective packed := by
  constructor
  · intro p q h
    have hwide : widened p = widened q := by rw [← devSplit_packed p, ← devSplit_packed q, h]
    have hfst := congrArg (fun w => w.1.setWidth 32) hwide
    have hsnd := congrArg (fun w => w.2.setWidth 32) hwide
    simp only [widened, BitVec.setWidth_setWidth_of_le _ (by omega : 32 ≤ 64), BitVec.setWidth_eq] at hfst hsnd
    exact Prod.ext hfst hsnd
  · intro dev
    exact ⟨_, packed_devSplit dev⟩

theorem toNat_majorMinor (rdev : BitVec 32) :
    (Core.majorMinor rdev).1.toNat = rdev.toNat / 2 ^ 8 % 2 ^ 12 ∧
      (Core.majorMinor rdev).2.toNat = rdev.toNat / 2 ^ 20 * 2 ^ 8 + rdev.toNat % 2 ^ 8 := by
  have hrdev := rdev.isLt
  constructor
  · change rdev.toNat >>> 8 &&& 0xfff = _
    rw [Nat.shiftRight_eq_div_pow]
    exact Nat.and_two_pow_sub_one_eq_mod _ 12
  · have hlow : rdev.toNat &&& 0xff = rdev.toNat % 2 ^ 8 := Nat.and_two_pow_sub_one_eq_mod _ 8
    have hhigh : rdev.toNat / 2 ^ 12 &&& 0xfff00 = rdev.toNat / 2 ^ 20 * 2 ^ 8 := by
      rw [show (0xfff00 : Nat) = (2 ^ 12 - 1) <<< 8 from rfl, and_mask]
      omega
    change (rdev.toNat &&& 0xff) ||| (rdev.toNat >>> 12 &&& 0xfff00) = _
    rw [Nat.shiftRight_eq_div_pow, hlow, hhigh]
    exact or_masked (Nat.mod_lt _ (by omega))

theorem widened_majorMinor (rdev : BitVec 32) : widened (Core.majorMinor rdev) = devSplit (rdev.setWidth 64) := by
  have hrdev := rdev.isLt
  obtain ⟨hmajor, hminor⟩ := toNat_majorMinor rdev
  have hwide : (rdev.setWidth 64).toNat = rdev.toNat := BitVec.toNat_setWidth_of_le (by omega)
  apply Prod.ext
  · apply BitVec.eq_of_toNat_eq
    change ((Core.majorMinor rdev).1.setWidth 64).toNat = (devMajor (rdev.setWidth 64)).toNat
    rw [BitVec.toNat_setWidth_of_le (by omega), toNat_devMajor, hwide, hmajor]
    omega
  · apply BitVec.eq_of_toNat_eq
    change ((Core.majorMinor rdev).2.setWidth 64).toNat = (devMinor (rdev.setWidth 64)).toNat
    rw [BitVec.toNat_setWidth_of_le (by omega), toNat_devMinor, hwide, hminor]
    omega

/-- Device numbers are packed and taken apart one way everywhere. -/
theorem device_split_one_way :
    Function.Bijective packed ∧
    (∀ major minor : BitVec 32, (packed (major, minor)).toNat = makedev major.toNat minor.toNat ∧
      devSplit (packed (major, minor)) = widened (major, minor)) ∧
    (∀ dev : BitVec 64, packed ((devSplit dev).1.setWidth 32, (devSplit dev).2.setWidth 32) = dev) ∧
    (∀ dev : BitVec 64,
      devString dev = Text.ofNat (devSplit dev).1.toNat ++ ',' :: Text.ofNat (devSplit dev).2.toNat ∧
      Core.devParts dev = devSplit dev) ∧
    ∀ rdev : BitVec 32, widened (Core.majorMinor rdev) = devSplit (rdev.setWidth 64) := by
  refine ⟨packed_bijective, ?_, packed_devSplit, ?_, widened_majorMinor⟩
  · intro major minor
    exact ⟨toNat_packed (major, minor), devSplit_packed (major, minor)⟩
  · intro dev
    exact ⟨rfl, rfl⟩

end Lsof.Linux
