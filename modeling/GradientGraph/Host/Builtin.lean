import GradientGraph.Host.Module

/-!
# The two built-in modules

`scalarModule` offers programs of scalars with scalar derivatives,
`arrayModule` programs of scalars, vectors and matrices with Jacobians as
derivatives. Overloads of equal rank are tried in the order in which they
are added here.
-/

set_option autoImplicit false

namespace GradientGraph

namespace Module

def withPrograms (m : Module) : Module :=
  let m := m.addClass "Variable" [] "Base class of all variables, whatever their category."
  let m := m.addClass "Function" []
    ("Evaluates and differentiates targets with respect to the sources of the " ++
      "subgraph bounded by `sources`. Construction fails if `targets` is empty. " ++
      "After assigning a new expression to a variable inside the subgraph, " ++
      "`compile()` must be called again; passes on the old program fail.")
  let m := m.define "Function" .newProgram
  let m := m.define "Function" .newBoundedProgram
  let m := m.defineMethod "Function" "compile" .compile
  let m := m.defineMethod "Function" "compiled" .compiled
  let m := m.defineMethod "Function" "evaluate" .evaluate
  let m := m.defineMethod "Function" "push_tangent" .pushTangent
  let m := m.defineMethod "Function" "push_tangent_at" .pushTangentAt
  let m := m.defineMethod "Function" "pull_gradient" .pullGradient
  let m := m.defineMethod "Function" "pull_gradient_at" .pullGradientAt
  let m := m.defineMethod "Function" "__str__" .programText
  let m := m.setDoc "Function.compile"
    "Builds the evaluation program. Fails on a cyclic dependency."
  let m := m.setDoc "Function.compiled" "Whether a program exists and matches the graph."
  let m := m.setDoc "Function.evaluate"
    "Evaluates the targets from the current values of the sources, compiling first if needed."
  let m := m.setDoc "Function.push_tangent"
    "Forward mode: propagates the tangents of the sources to every variable of the program."
  let m := m.setDoc "Function.push_tangent_at"
    "Forward mode with the seed's tangent set to the identity and the other sources' to zero."
  let m := m.setDoc "Function.pull_gradient"
    "Reverse mode: propagates the gradients of the targets to every variable of the program."
  m.setDoc "Function.pull_gradient_at"
    "Reverse mode with the seed's gradient set to the identity and the other targets' to zero."

/-- The classes of a category, its constructor, and its share of `var` and
`d`. Derivatives are passed as literals of the category `derivative`. -/
def withCategory (m : Module) (c derivative : Category) : Module :=
  let own := c.variableClass
  let m := m.addClass c.expressionClass []
    ("Abstract base class of " ++ c.lowerName ++ " expressions.")
  let m := m.addClass c.operationClass [c.expressionClass]
    ("A pending " ++ c.lowerName ++ " computation.")
  let m := m.addClass own [c.expressionClass, "Variable"]
    ("A " ++ c.lowerName ++ " variable: a value or an expression, evaluated eagerly, " ++
      "with a cached derivative.")
  let m := m.define own (.newDefault c)
  let m := m.define own (.newLiteral c)
  let m := m.define own (.newComputed c)
  let m := m.defineMethod own "__call__" (.value c)
  let m := m.defineMethod own "set" (.assignLiteral c)
  let m := m.defineMethod own "set" (.assignExpression c)
  let m := m.defineMethod own "set_derivative" (.setDerivative c derivative)
  let m := m.defineMethod own "derivative" (.derivative c)
  let m := m.setDoc (own ++ ".__call__") "Current value."
  let m := m.setDoc (own ++ ".set") "Assigns a value or an expression and evaluates it."
  let m := m.setDoc (own ++ ".set_derivative") "Overwrites the cached derivative."
  let m := m.define "var" (.newDefault c)
  let m := m.define "var" (.newLiteral c)
  let m := m.define "var" (.newComputed c)
  let m := m.define "d" (.derivative c)
  let m := m.setDoc "var"
    "Creates a variable from a value or an expression, or a zero-valued one."
  m.setDoc "d" "Derivative of a variable from the last differentiation pass."

def arithmetic : List (String × BinOp) :=
  [("add", .add), ("sub", .sub), ("mul", .mul), ("truediv", .div), ("pow", .pow)]

def withInfix (m : Module) (c : Category) (name : String) (op : BinOp) : Module :=
  let forward := forwardName name
  let reflected := reflectedName name
  let body (operands : Operands) (name : String) : Body :=
    .binary (.cwise op) c c c operands (some name)
  let m := m.defineMethod c.expressionClass forward (body .expressions forward)
  let m := m.defineMethod c.expressionClass forward (body .literalRight forward)
  m.defineMethod c.expressionClass reflected (body .reflectedLiteral reflected)

def withArithmetic (m : Module) (c : Category) : Module :=
  let m := arithmetic.foldl (fun m (name, op) => m.withInfix c name op) m
  m.defineMethod c.expressionClass (forwardName "neg") (.unary (.map .neg) c)

def withBroadcast (m : Module) (c : Category) (name : String) (op : BinOp) : Module :=
  let body (operands : Operands) : Body :=
    .binary (.broadcast op) c .scalar c operands none
  let m := m.defineMethod c.expressionClass (forwardName name) (body .literalRight)
  m.defineMethod c.expressionClass (forwardName name) (body .expressions)

def withReflectedBroadcast (m : Module) (c : Category) (name : String) (op : BinOp) : Module :=
  let body (operands : Operands) : Body :=
    .binary (.broadcastLeft op) .scalar c c operands none
  let m := m.defineMethod c.expressionClass (reflectedName name) (body .reflectedLiteral)
  m.defineMethod c.expressionClass (reflectedName name) (body .reflected)

/-- A scalar is not raised to an array. -/
def withBroadcasts (m : Module) (c : Category) : Module :=
  let m := arithmetic.foldl (fun m (name, op) => m.withBroadcast c name op) m
  (arithmetic.filter (·.2 ≠ .pow)).foldl (fun m (name, op) => m.withReflectedBroadcast c name op) m

def withMatmul (m : Module) (c : Category) : Module :=
  let name := forwardName "matmul"
  let body (operands : Operands) : Body :=
    .binary .matmul .matrix c c operands (some name)
  let m := m.defineMethod (Category.expressionClass .matrix) name (body .expressions)
  m.defineMethod (Category.expressionClass .matrix) name (body .literalRight)

def elementwise : List (String × UnOp) :=
  [("cos", .cos), ("exp", .exp), ("log", .log), ("maximum", .maximum), ("minimum", .minimum),
    ("sin", .sin), ("sqrt", .sqrt), ("square", .square)]

def withElementwise (m : Module) (c : Category) : Module :=
  elementwise.foldl (fun m (name, op) => m.define name (.unary (.map op) c)) m

def withReductions (m : Module) (c : Category) : Module :=
  let m := m.define "mean" (.unary .mean c)
  let m := m.define "norm" (.unary .norm c)
  let m := m.define "squared_norm" (.unary .squaredNorm c)
  m.define "sum" (.unary .sum c)

def withProduct (m : Module) (name : String) (k : BinaryKernel) (l r result : Category) :
    Module :=
  let body (operands : Operands) : Body := .binary k l r result operands (some name)
  let m := m.define name (body .expressions)
  let m := m.define name (body .literalRight)
  m.define name (body .literalLeft)

def withDocs (m : Module) (docs : List (String × String)) : Module :=
  docs.foldl (fun m (name, doc) => m.setDoc name doc) m

end Module

def scalarModule : Module :=
  let m : Module := {
    name := "scalar"
    doc := "Automatic differentiation of scalar computations. " ++
      "Binary operations accept a float literal for either operand." }
  let m := m.withPrograms
  let m := m.withCategory .scalar .scalar
  let m := m.withArithmetic .scalar
  let m := m.withElementwise .scalar
  m.withDocs
    [("cos", "Cosine."),
     ("exp", "Exponential."),
     ("log", "Natural logarithm."),
     ("maximum", "Maximum of a scalar and zero."),
     ("minimum", "Minimum of a scalar and zero."),
     ("sin", "Sine."),
     ("sqrt", "Square root."),
     ("square", "Square.")]

def arrayModule : Module :=
  let m : Module := {
    name := "array"
    doc := "Automatic differentiation of scalar, vector and matrix computations. " ++
      "Binary operations accept a literal for either operand, and scalars broadcast into " ++
      "array operations. One-dimensional and N x 1 arrays are vectors; 1 x N arrays are " ++
      "matrices." }
  let m := m.withPrograms
  let m := m.withCategory .scalar .matrix
  let m := m.withArithmetic .scalar
  let m := m.withElementwise .scalar
  let m := m.withCategory .vector .matrix
  let m := m.withArithmetic .vector
  let m := m.withBroadcasts .vector
  let m := m.withElementwise .vector
  let m := m.withCategory .matrix .matrix
  let m := m.withArithmetic .matrix
  let m := m.withBroadcasts .matrix
  let m := m.withMatmul .vector
  let m := m.withMatmul .matrix
  let m := m.withElementwise .matrix
  let m := m.withProduct "dot" .dot .vector .vector .scalar
  let m := m.withProduct "outer" .outer .vector .vector .matrix
  let m := m.withProduct "matmul" .matmul .matrix .vector .vector
  let m := m.withProduct "matmul" .matmul .matrix .matrix .matrix
  let m := m.withReductions .vector
  let m := m.withReductions .matrix
  m.withDocs
    [("cos", "Cosine, element-wise."),
     ("exp", "Exponential, element-wise."),
     ("log", "Natural logarithm, element-wise."),
     ("maximum", "Element-wise maximum of the elements and zero."),
     ("minimum", "Element-wise minimum of the elements and zero."),
     ("sin", "Sine, element-wise."),
     ("sqrt", "Square root, element-wise."),
     ("square", "Square, element-wise."),
     ("dot", "Dot product of two vectors."),
     ("outer", "Outer product of two vectors."),
     ("matmul", "Matrix-vector or matrix-matrix product."),
     ("mean", "Arithmetic mean of the elements."),
     ("norm", "L2 norm of a vector, Frobenius norm of a matrix."),
     ("squared_norm", "Square of `norm`, the dot product of the array with itself."),
     ("sum", "Sum of the elements.")]

end GradientGraph
