import Horcrux.HorcruxData
import Horcrux.Lib.LittleEndian

namespace Horcrux.Save
open LittleEndian

structure PreRequestHeader where
  mUuid : UInt64 := 0
  mTotalSize : UInt32 := 0
  mNumHorcruxes : UInt32 := 0
  deriving DecidableEq

namespace Request

structure Header where
  mUuid : UInt64 := 0
  mIndex : UInt32 := 0
  mContentSize : UInt32 := 0
  mChecksumSize : UInt32 := 0
  deriving DecidableEq

end Request

structure Request where
  mHeader : Request.Header := {}
  mContent : Bytes := []
  mChecksum : Bytes := []
  deriving DecidableEq

/-- A pre-request header has no padding bytes, a request header has four. -/
def noPadding : CharArray 0 := ⟨[], rfl⟩

def zeroPadding : CharArray 4 := ⟨[0, 0, 0, 0], rfl⟩

/-- The field of `w` bytes at offset `i` of an object. -/
def field (bs : Bytes) (i w : Nat) : Nat := decode ((bs.drop i).take w)

/-- Sixteen bytes without padding. -/
instance : Utils.Layout PreRequestHeader where
  size := 16
  padding := 0
  store h _ := ⟨encode 8 h.mUuid.toNat ++ encode 4 h.mTotalSize.toNat ++
    encode 4 h.mNumHorcruxes.toNat, by simp⟩
  load bs := ⟨.ofNat (field bs 0 8), .ofNat (field bs 8 4), .ofNat (field bs 12 4)⟩

/-- Twenty bytes of fields, and four of padding for the alignment of `mUuid`. -/
instance : Utils.Layout Request.Header where
  size := 24
  padding := 4
  store h padding := ⟨encode 8 h.mUuid.toNat ++ encode 4 h.mIndex.toNat ++
    encode 4 h.mContentSize.toNat ++ encode 4 h.mChecksumSize.toNat ++ padding.val,
    by simp [padding.property]⟩
  load bs := ⟨.ofNat (field bs 0 8), .ofNat (field bs 8 4), .ofNat (field bs 12 4),
    .ofNat (field bs 16 4)⟩

def PreRequestHeader.fromHorcruxes (uuid : UInt64) (horcruxes : List HorcruxData) :
    PreRequestHeader :=
  horcruxes.foldl
    (fun header hcx => { header with
      mTotalSize := header.mTotalSize + UInt32.ofNat hcx.mContent.length })
    ⟨uuid, 0, UInt32.ofNat horcruxes.length⟩

/-- The index of a request is the number of requests built before it. -/
def Request.fromHorcruxes (uuid : UInt64) (horcruxes : List HorcruxData) : List Request :=
  horcruxes.foldl
    (fun requests hcx => requests ++ [{
      mHeader := { mUuid := uuid, mIndex := UInt32.ofNat requests.length,
                   mContentSize := UInt32.ofNat hcx.mContent.length }
      mContent := hcx.mContent
      mChecksum := hcx.mChecksum }])
    []

end Horcrux.Save
