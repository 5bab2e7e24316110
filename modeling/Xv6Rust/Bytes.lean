import Mathlib

/-!
# Little-endian fields of a byte array

A byte array is a function of its offsets. A field is a window of consecutive
bytes read and written as one little-endian number. What is written is read
back, and fields whose windows are apart do not affect each other.
-/

namespace Xv6Rust.Bytes

/-- The bytes of a buffer, by offset. -/
abbrev Buffer := ℕ → UInt8

/-- The number in the `n` bytes from an offset on, lowest byte first. -/
def getLE (b : Buffer) (off : ℕ) : ℕ → ℕ
  | 0 => 0
  | n+1 => (b off).toNat+256*getLE b (off+1) n

/-- Write a number to the `n` bytes from an offset on, lowest byte first. -/
def putLE (b : Buffer) (off : ℕ) : ℕ → ℕ → Buffer
  | 0,_ => b
  | n+1,v => putLE (Function.update b off (UInt8.ofNat v)) (off+1) n (v/256)

/-- A write leaves the bytes outside its window alone. -/
theorem putLE_apply_of_outside {b : Buffer} {off n v i : ℕ} (h : i<off ∨ off+n ≤ i) :
    putLE b off n v i=b i := by
  induction n generalizing b off v with
  | zero => rfl
  | succ n ih =>
    rw [putLE,ih (by omega),Function.update_of_ne (by omega)]

/-- A field depends on the bytes of its window. -/
theorem getLE_congr {b c : Buffer} {off n : ℕ} (h : ∀ i,off ≤ i → i<off+n → b i=c i) :
    getLE b off n=getLE c off n := by
  induction n generalizing off with
  | zero => rfl
  | succ n ih =>
    rw [getLE,getLE,h off (by omega) (by omega),ih fun i hi hi' => h i (by omega) (by omega)]

/-- A field is below the power of its width. -/
theorem getLE_lt (b : Buffer) (off n : ℕ) : getLE b off n<256^n := by
  induction n generalizing off with
  | zero => exact Nat.one_pos
  | succ n ih =>
    have h := ih (off+1)
    have h8 := (b off).toNat_lt
    rw [getLE,Nat.pow_succ]
    omega

/-- A number that fits its field is read back. -/
theorem getLE_putLE_self {b : Buffer} {off n v : ℕ} (h : v<256^n) :
    getLE (putLE b off n v) off n=v := by
  induction n generalizing b off v with
  | zero =>
    rw [getLE]
    rw [Nat.pow_zero] at h
    omega
  | succ n ih =>
    have hv : v/256<256^n := by
      rw [Nat.pow_succ] at h
      omega
    rw [putLE,getLE,ih hv,putLE_apply_of_outside (by omega),Function.update_self,
      UInt8.toNat_ofNat']
    omega

/-- A field apart from the one written is unchanged. -/
theorem getLE_putLE_of_apart {b : Buffer} {off n v off' n' : ℕ}
    (h : off'+n'≤off ∨ off+n≤off') : getLE (putLE b off n v) off' n'=getLE b off' n' :=
  getLE_congr fun i hi hi' => putLE_apply_of_outside (by omega)

/-- Read a `u32`. -/
def getU32 (b : Buffer) (off : ℕ) : UInt32 := UInt32.ofNat (getLE b off 4)

/-- Write a `u32`. -/
def putU32 (b : Buffer) (off : ℕ) (v : UInt32) : Buffer := putLE b off 4 v.toNat

@[simp] theorem getU32_putU32_self (b : Buffer) (off : ℕ) (v : UInt32) :
    getU32 (putU32 b off v) off=v := by
  rw [getU32,putU32,getLE_putLE_self v.toNat_lt,UInt32.ofNat_toNat]

theorem getU32_putU32_of_apart {b : Buffer} {off off' : ℕ} {v : UInt32}
    (h : off'+4≤off ∨ off+4≤off') : getU32 (putU32 b off v) off'=getU32 b off' := by
  rw [getU32,putU32,getLE_putLE_of_apart h,getU32]

/-- Write consecutive `u32` numbers. -/
def putU32s (b : Buffer) (off : ℕ) : List UInt32 → Buffer
  | [] => b
  | v::vs => putU32s (putU32 b off v) (off+4) vs

/-- Writing numbers leaves the fields before them alone. -/
theorem getU32_putU32s_of_before {b : Buffer} {off off' : ℕ} {vs : List UInt32}
    (h : off'+4≤off) : getU32 (putU32s b off vs) off'=getU32 b off' := by
  induction vs generalizing b off with
  | nil => rfl
  | cons v vs ih => rw [putU32s,ih (by omega),getU32_putU32_of_apart (.inl h)]

/-- Writing numbers leaves the bytes outside their window alone. -/
theorem putU32s_apply_of_outside {b : Buffer} {off i : ℕ} {vs : List UInt32}
    (h : i<off ∨ off+4*vs.length ≤ i) : putU32s b off vs i=b i := by
  induction vs generalizing b off with
  | nil => rfl
  | cons v vs ih =>
    rw [List.length_cons] at h
    rw [putU32s,ih (by omega),putU32,putLE_apply_of_outside (by omega)]

/-- Each number written is read back. -/
theorem getU32_putU32s {b : Buffer} {off i : ℕ} {vs : List UInt32} (h : i<vs.length) :
    getU32 (putU32s b off vs) (off+4*i)=vs[i] := by
  induction vs generalizing b off i with
  | nil => cases h
  | cons v vs ih =>
    cases i with
    | zero =>
      have hoff : off+4*0=off := by omega
      rw [putU32s,hoff,getU32_putU32s_of_before (Nat.le_refl _)]
      exact getU32_putU32_self ..
    | succ i =>
      rw [List.length_cons] at h
      have hoff : off+4*(i+1)=off+4+4*i := by omega
      rw [putU32s,hoff,ih (by omega)]
      rfl

end Xv6Rust.Bytes
