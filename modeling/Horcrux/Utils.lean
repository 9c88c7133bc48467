import Horcrux.Lib.MersenneTwister

namespace Horcrux

/-- `std::string` and `char` buffers: raw bytes. -/
abbrev Bytes := List UInt8

/-- `std::array<char, n>`. -/
abbrev CharArray (n : Nat) := { bs : Bytes // bs.length = n }

/-- The characters of a narrow string literal. -/
def chars (s : String) : Bytes := s.toList.map Char.toUInt8

/-- A `char*` argument: it ends at its first NUL. -/
abbrev CString := { bs : Bytes // 0 ∉ bs }

/-- A relative path as its list of components. -/
abbrev Path := List String

inductive Node where
  | file (content : Bytes)
  | directory
  deriving DecidableEq

/-- What stands at each path. -/
abbrev FileSystem := Path → Option Node

namespace Utils

/-- `std::filesystem::is_regular_file`. -/
def isRegularFile (fs : FileSystem) (path : Path) : Bool :=
  match fs path with
  | some (.file _) => true
  | _ => false

/-- A stream opens for writing exactly when the parent directory exists and the path
itself is no directory. -/
def opensForWriting (fs : FileSystem) (path : Path) : Bool :=
  fs path.dropLast = some .directory && fs path ≠ some .directory

def loadFile (fs : FileSystem) (path : Path) : Option Bytes :=
  match fs path with
  | some (.file content) => some content
  | _ => none

def saveFile (fs : FileSystem) (binary : Bytes) (path : Path) : Bool × FileSystem :=
  if isRegularFile fs path then
    (false, fs)
  else if opensForWriting fs path then
    (true, fun q => if q = path then some (.file binary) else fs q)
  else
    (false, fs)

/-- The x86-64 object representation of a header type: its size, how many of those
bytes are padding, and the bytes as a function of the fields and of the padding. -/
class Layout (HEADER : Type) where
  size : Nat
  padding : Nat
  store : HEADER → CharArray padding → CharArray size
  load : CharArray size → HEADER

/-- The raw copy of a header object, padding included. -/
def serializeHeader {HEADER : Type} [Layout HEADER] (header : HEADER)
    (padding : CharArray (Layout.padding HEADER)) : CharArray (Layout.size HEADER) :=
  Layout.store header padding

def deserializeHeader {HEADER : Type} [Layout HEADER]
    (binaries : CharArray (Layout.size HEADER)) : HEADER :=
  Layout.load binaries

/-- `std::uniform_int_distribution` over all of `uint64_t`. That is the range of the engine,
so that one output is taken as it is. -/
def uniformIntDistribution (rng : MersenneTwister.Engine) : UInt64 := rng.next.1

/-- `rd` is what the call of `std::random_device` returned, an `unsigned int`. How a
distribution uses its engine is up to the library. -/
def generateRandomUint64 (distribution : MersenneTwister.Engine → UInt64) (rd : UInt32) : UInt64 :=
  let rng := MersenneTwister.seed rd.toUInt64
  distribution rng

/-- What `std::stoi` throws. -/
inductive Exception where
  | invalidArgument
  | outOfRange
  deriving DecidableEq

/-- `std::isspace` in the C locale. -/
def isSpace (c : UInt8) : Bool := c = 32 || (9 ≤ c && c ≤ 13)

def isDigit (c : UInt8) : Bool := 48 ≤ c && c ≤ 57

/-- The value of a run of digits. -/
def digitsValue (digits : Bytes) : Nat := digits.foldl (fun n c => 10 * n + (c.toNat - 48)) 0

/-- Whether the text starts with a minus, and the text after the sign it may start with. -/
def takeSign : Bytes → Bool × Bytes
  | 45 :: cs => (true, cs)
  | 43 :: cs => (false, cs)
  | cs => (false, cs)

/-- The number that a text starts with, after white space; what follows its digits is
not looked at. -/
def leadingInteger (str : Bytes) : Option Int :=
  let signed := takeSign (str.dropWhile isSpace)
  let digits := signed.2.takeWhile isDigit
  if digits = [] then none
  else some (if signed.1 then -(digitsValue digits : Int) else digitsValue digits)

/-- `std::stoi`. -/
def stoi (str : Bytes) : Except Exception Int32 :=
  match leadingInteger str with
  | none => .error .invalidArgument
  | some value =>
    if Int32.minValue.toInt ≤ value ∧ value ≤ Int32.maxValue.toInt then
      .ok (Int32.ofInt value)
    else .error .outOfRange

structure ClientSaveOptions where
  mHorcruxCount : UInt32
  mInputPath : Bytes
  deriving DecidableEq

/-- The inner error is the text on `std::cerr` of a call that returns nullopt, the outer
one an exception that leaves the function. The count of stoi is an `int`, which becomes
a `uint32_t` in the assignment. -/
def parseHorcruxCommand (argc : Int32) (argv : Nat → CString) :
    Except Exception (Except String ClientSaveOptions) :=
  if argc ≠ 5 then
    .ok (.error "Usage: ./horcrux save -n <horcrux count> <input path>")
  else if (argv 1).val ≠ chars "save" then
    .ok (.error "Invalid command. Use 'save' or 'load' ('load' mode is not available).")
  else if (argv 2).val ≠ chars "-n" then
    .ok (.error "Invalid option. Use '-n'.")
  else
    match stoi (argv 3).val with
    | .ok value => .ok (.ok ⟨value.toUInt32, (argv 4).val⟩)
    | .error .invalidArgument =>
      .ok (.error "Invalid horcrux count. Please provide a valid integer.")
    | .error .outOfRange => .error .outOfRange

end Utils
end Horcrux
