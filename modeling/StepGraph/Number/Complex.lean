namespace StepGraph

-- The parts of a single-precision complex number are doubles that hold single values.
structure Complex where
  re : Float
  im : Float
  deriving Inhabited

namespace Complex

def zero : Complex := ⟨0, 0⟩

-- Both parts rounded to single precision.
def narrow (a : Complex) : Complex := ⟨a.re.toFloat32.toFloat, a.im.toFloat32.toFloat⟩

def add (a b : Complex) : Complex := ⟨a.re + b.re, a.im + b.im⟩

def sub (a b : Complex) : Complex := ⟨a.re - b.re, a.im - b.im⟩

def mul (a b : Complex) : Complex :=
  ⟨a.re * b.re - a.im * b.im, a.re * b.im + a.im * b.re⟩

def div (a b : Complex) : Complex :=
  let norm := b.re * b.re + b.im * b.im
  ⟨(a.re * b.re + a.im * b.im) / norm, (a.im * b.re - a.re * b.im) / norm⟩

def neg (a : Complex) : Complex := ⟨-a.re, -a.im⟩

-- Equality of the parts as floating-point numbers.
def same (a b : Complex) : Bool := a.re == b.re && a.im == b.im

end Complex

end StepGraph
