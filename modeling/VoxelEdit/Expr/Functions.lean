import VoxelEdit.Expr.Basic

/-!
# Functions of formulas

The functions that every formula may call, and a table of registered ones that come before
them. The values of noise are made elsewhere: a table is given them, and samples the fields of
its seed.
-/

namespace VoxelEdit

/-- A field of noise. -/
inductive NoiseKind where
  | perlin | simplex | cellular | value
deriving DecidableEq, Repr

namespace NoiseKind

/-- The function that samples a field. -/
def name : NoiseKind → String
  | .perlin => "perlin"
  | .simplex => "simplex"
  | .cellular => "cellular"
  | .value => "value"

/-- The field that a function samples. -/
def ofName? (name : String) : Option NoiseKind :=
  [perlin, simplex, cellular, value].find? fun kind => kind.name == name

end NoiseKind

/-- The values of noise: for a field and a seed, those at the points of plane and of space. -/
structure Noise where
  plane : NoiseKind → Int → Float32 → Float32 → Float32
  space : NoiseKind → Int → Float32 → Float32 → Float32 → Float32

/-- Noise that is zero everywhere. -/
def Noise.flat : Noise := ⟨fun _ _ _ _ => 0.0, fun _ _ _ _ _ => 0.0⟩

/-- A function of formulas: the numbers of arguments it takes, and its value on them. -/
structure Function where
  arity : Arity
  value : List Float → Float

namespace Function

/-- The smaller of two numbers; one that is not a number loses. -/
def least (a b : Float) : Float := if a.isNaN || b < a then b else a

/-- The larger of two numbers; one that is not a number loses. -/
def most (a b : Float) : Float := if a.isNaN || b > a then b else a

/-- A function of one argument. -/
def unary (f : Float → Float) : Function :=
  ⟨.exactly 1, fun args => match args with
    | [a] => f a
    | _ => 0.0⟩

/-- A function of two arguments. -/
def binary (f : Float → Float → Float) : Function :=
  ⟨.exactly 2, fun args => match args with
    | [a, b] => f a b
    | _ => 0.0⟩

/-- A function that folds its arguments from the left. -/
def folding (f : Float → Float → Float) : Function :=
  ⟨.some, fun args => match args with
    | a :: rest => rest.foldl f a
    | [] => 0.0⟩

/-- The second argument and the third bound the first. -/
def clamp : Function :=
  ⟨.exactly 3, fun args => match args with
    | [a, lo, hi] => least (most a lo) hi
    | _ => 0.0⟩

/-- The functions that are always there, those of noise apart. -/
def builtins : List (String × Function) :=
  [("sin", unary Float.sin), ("cos", unary Float.cos), ("tan", unary Float.tan),
    ("asin", unary Float.asin), ("acos", unary Float.acos), ("atan", unary Float.atan),
    ("sqrt", unary Float.sqrt), ("abs", unary Float.abs), ("floor", unary Float.floor),
    ("ceil", unary Float.ceil), ("round", unary Float.round), ("exp", unary Float.exp),
    ("log", unary Float.log), ("atan2", binary Float.atan2), ("pow", binary Float.pow),
    ("min", folding least), ("max", folding most), ("clamp", clamp)]

end Function

/-- A function table: its noise with the seed, and the registered functions, latest first. -/
structure Functions where
  noise : Noise
  seed : Int
  custom : List (String × (List Float → Float))

namespace Functions

/-- The seed of a table that is given none. -/
def defaultSeed : Int := 1337

/-- A table without registered functions. -/
def withSeed (noise : Noise) (seed : Int) : Functions := ⟨noise, seed, []⟩

/-- The table with one more function, which hides others of its name. -/
def register (fs : Functions) (name : String) (f : List Float → Float) : Functions :=
  { fs with custom := (name, f) :: fs.custom }

/-- A sample of a field: two arguments are a point of the plane, three one of space. -/
def sample? (fs : Functions) (kind : NoiseKind) (args : List Float) : Option Float :=
  match args with
  | [a, b] => some (fs.noise.plane kind fs.seed a.toFloat32 b.toFloat32).toFloat
  | [a, b, c] =>
    some (fs.noise.space kind fs.seed a.toFloat32 b.toFloat32 c.toFloat32).toFloat
  | _ => none

/-- Calls a function. A registered one takes any number of arguments. -/
def call (fs : Functions) (name : String) (args : List Float) : Except EvalError Float :=
  match fs.custom.lookup name, NoiseKind.ofName? name, Function.builtins.lookup name with
  | some f, _, _ => .ok (f args)
  | none, some kind, _ =>
    match fs.sample? kind args with
    | some v => .ok v
    | none => .error (.arity name .twoOrThree args.length)
  | none, none, some f =>
    if f.arity.accepts args.length then .ok (f.value args)
    else .error (.arity name f.arity args.length)
  | none, none, none => .error (.unknownFunction name)

end Functions

end VoxelEdit
