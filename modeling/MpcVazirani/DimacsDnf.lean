import MpcVazirani.Cube
import MpcVazirani.ForLoop
import MpcVazirani.IStream

/-! # The parser

`parse` of `utils/dimacs_dnf.h`: one pass over the lines of the file, with the
header flag, the declared number of variables, the number of cubes written, the
pending cube and its number of literals carried along.  The declared numbers only
bound what is accepted; the result always has `VARS` variables and `CUBES` cubes,
filled up with padding.

Two things C++ leaves undefined can be written down in this code, an array index
out of range and the negation of the least int.  Where the source would run into
one the model fails with `undefined` instead of an error of its own.
-/
namespace MpcVazirani
open ForLoop IStream

/-- The errors `parse` throws, with the numbers their texts mention. -/
inductive ParseError where
  | cannotOpen
  | duplicateHeader
  | malformedHeader
  | tooManyVars (file_vars : Int)
  | tooManyCubesDeclared (file_cubes : Int)
  | literalsBeforeHeader
  | tooManyCubes
  | literalOutOfRange (lit file_vars : Int)
  | bothPolarities (var : Int)
  | missingHeader
  | endsMidCube
  deriving DecidableEq

/-- The text of the `std::runtime_error`. -/
def ParseError.what (path : String) (VARS CUBES : Nat) : ParseError → String
  | cannotOpen => "dimacs_dnf::parse: cannot open " ++ path
  | duplicateHeader => "dimacs_dnf::parse: duplicate 'p' line in " ++ path
  | malformedHeader => "dimacs_dnf::parse: malformed 'p' line in " ++ path
  | tooManyVars file_vars =>
    "dimacs_dnf::parse: file declares " ++ toString file_vars ++
      " variables, more than the fixed capacity " ++ toString VARS ++ " in " ++ path
  | tooManyCubesDeclared file_cubes =>
    "dimacs_dnf::parse: file declares " ++ toString file_cubes ++
      " cubes, more than the fixed capacity " ++ toString CUBES ++ " in " ++ path
  | literalsBeforeHeader => "dimacs_dnf::parse: literals before 'p dnf' header in " ++ path
  | tooManyCubes =>
    "dimacs_dnf::parse: " ++ path ++ " contains more cubes than the fixed capacity " ++
      toString CUBES
  | literalOutOfRange lit file_vars =>
    "dimacs_dnf::parse: literal " ++ toString lit ++ " out of range 1.." ++ toString file_vars ++
      " in " ++ path
  | bothPolarities var =>
    "dimacs_dnf::parse: variable " ++ toString var ++
      " appears with both polarities in the same cube in " ++ path
  | missingHeader => "dimacs_dnf::parse: missing 'p dnf' header in " ++ path
  | endsMidCube => "dimacs_dnf::parse: file ends mid-cube (missing terminating 0) in " ++ path

/-- Every text names the file. -/
theorem ParseError.path_infix_what (path : String) (VARS CUBES : Nat) (e : ParseError) :
    path.toList <:+: (e.what path VARS CUBES).toList := by
  -- not by its equations, whose proofs would evaluate the texts
  delta ParseError.what
  cases e with
  | tooManyCubes =>
    simp only [String.toList_append, List.append_assoc]
    exact List.infix_append' _ _ _
  | _ =>
    rw [String.toList_append]
    exact (List.suffix_append _ _).isInfix

/-- How `parse` fails to return. -/
inductive ParseFailure where
  | thrown (e : ParseError)
  | undefined
  deriving DecidableEq

variable {VARS CUBES : Nat}

/-- `Cube<VARS>{}`: no literals. -/
def Cube.empty : Cube VARS := ⟨fun _ => false, fun _ => false, false⟩

/-- `c.mask[idx] = true; c.bits[idx] = positive;` -/
def Cube.setLiteral (c : Cube VARS) (idx : Fin VARS) (positive : Bool) : Cube VARS :=
  { c with
    bits := Function.update c.bits idx positive
    mask := Function.update c.mask idx true }

/-- `dnf.cubes[k] = c;` -/
def Dnf.setCube (d : Dnf VARS CUBES) (k : Fin CUBES) (c : Cube VARS) : Dnf VARS CUBES :=
  ⟨Function.update d.cubes k c⟩

@[simp] theorem Dnf.setCube_cubes (d : Dnf VARS CUBES) (k : Fin CUBES) (c : Cube VARS) :
    (d.setCube k c).cubes = Function.update d.cubes k c := rfl

/-- The locals of `parse` that its loops carry. -/
structure ParseState (VARS CUBES : Nat) where
  dnf : Dnf VARS CUBES
  haveHeader : Bool
  fileVars : Int
  cubeCount : Nat
  current : Cube VARS
  literalsInCurrent : Nat

/-- The locals before the first line. -/
def ParseState.init : ParseState VARS CUBES where
  dnf := ⟨fun _ => Cube.empty⟩
  haveHeader := false
  fileVars := 0
  cubeCount := 0
  current := Cube.empty
  literalsInCurrent := 0

/-- `reset_current()`. -/
def ParseState.resetCurrent (st : ParseState VARS CUBES) : ParseState VARS CUBES :=
  { st with
    current := Cube.empty
    literalsInCurrent := 0 }

/-- The header branch, on the line from its `p` on. -/
def parseHeader (st : ParseState VARS CUBES) (line : List Char) :
    Except ParseFailure (ParseState VARS CUBES) :=
  if st.haveHeader = true then .error (.thrown .duplicateHeader)
  else
    -- iss >> p >> fmt >> file_vars >> file_cubes; what is missing leaves its variable alone
    let iss1 := (readString ⟨line, false⟩ []).1
    let iss2 := (readString iss1 []).1
    let fmt := (readString iss1 []).2
    let iss3 := (readInt iss2 st.fileVars).1
    let fileVars := (readInt iss2 st.fileVars).2
    let fileCubes := (readInt iss3 0).2
    if fmt ≠ ['d', 'n', 'f'] ∨ fileVars ≤ 0 then .error (.thrown .malformedHeader)
    else if (VARS : Int) < fileVars then .error (.thrown (.tooManyVars fileVars))
    else if (CUBES : Int) < fileCubes then .error (.thrown (.tooManyCubesDeclared fileCubes))
    else .ok ({ st with haveHeader := true, fileVars := fileVars } : ParseState _ _).resetCurrent

/-- `lit > 0 ? lit : -lit`. -/
def literalVar (lit : Int) : Except ParseFailure Int :=
  if 0 < lit then .ok lit
  else if lit = intMin then .error .undefined
  else .ok (-lit)

/-- The body of `while (iss >> lit)`. -/
def parseLiteral (st : ParseState VARS CUBES) (lit : Int) :
    Except ParseFailure (ParseState VARS CUBES) :=
  if lit = 0 then
    if h : st.cubeCount < CUBES then
      .ok ({ st with
        dnf := st.dnf.setCube ⟨st.cubeCount, h⟩ st.current
        cubeCount := st.cubeCount + 1 } : ParseState _ _).resetCurrent
    else .error (.thrown .tooManyCubes)
  else
    match literalVar lit with
    | .error e => .error e
    | .ok var =>
      if var < 1 ∨ st.fileVars < var then .error (.thrown (.literalOutOfRange lit st.fileVars))
      else if h : (var - 1).toNat < VARS then
        if st.current.mask ⟨(var - 1).toNat, h⟩ = true then .error (.thrown (.bothPolarities var))
        else .ok { st with
          current := st.current.setLiteral ⟨(var - 1).toNat, h⟩ (decide (0 < lit))
          literalsInCurrent := st.literalsInCurrent + 1 }
      else .error .undefined

/-- The characters `find_first_not_of` skips. -/
def isBlank (c : Char) : Bool := c == ' ' || c == '\t' || c == '\r' || c == '\n'

/-- The body of `while (std::getline(in, line))`. -/
def parseLine (st : ParseState VARS CUBES) (line : List Char) :
    Except ParseFailure (ParseState VARS CUBES) :=
  match line.dropWhile isBlank with
  | [] => .ok st
  | c :: s =>
    if c = 'c' then .ok st
    else if c = 'p' then parseHeader st (c :: s)
    else if st.haveHeader = false then .error (.thrown .literalsBeforeHeader)
    else (readInts ⟨line, false⟩).foldlM parseLiteral st

/-- What follows the lines: the two last checks, and the padding loop. -/
def parseEnd (st : ParseState VARS CUBES) : Except ParseFailure (Dnf VARS CUBES) :=
  if st.haveHeader = false then .error (.thrown .missingHeader)
  else if 0 < st.literalsInCurrent then .error (.thrown .endsMidCube)
  else .ok (forLoop st.cubeCount (fun k dnf => dnf.setCube k Cube.padding) st.dnf CUBES
    (Nat.le_refl CUBES))

/-- `parse<VARS, CUBES>` on a file with the given content, if it can be opened. -/
def parse (VARS CUBES : Nat) (file : Option (List Char)) : Except ParseFailure (Dnf VARS CUBES) :=
  match file with
  | none => .error (.thrown .cannotOpen)
  | some content => do
    let st ← (getlines content).foldlM parseLine ParseState.init
    parseEnd st

end MpcVazirani
