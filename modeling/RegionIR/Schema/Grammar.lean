import RegionIR.Schema.Record
/-!
# The JSON spelling of source trees

The variants of each kind of node with their fields, in the order in which they are declared; that
order fixes the numbering of variants, the order of elements in an array, and which of several
missing fields is reported.
-/
namespace RegionIR.Schema

open RegionIR.Schema.Field (required)

/-- The member of a node that names its variant. -/
def tagKey : String := "_t"

def boolOperatorVariants : List (Variant BoolOperator) :=
  BoolOperator.all.map fun op => .plain op.tag op

def binaryOperatorVariants : List (Variant BinaryOperator) :=
  BinaryOperator.all.map fun op => .plain op.tag op

def cmpOperatorVariants : List (Variant CmpOperator) :=
  CmpOperator.all.map fun op => .plain op.tag op

def unaryOperatorVariants : List (Variant UnaryOperator) :=
  UnaryOperator.all.map fun op => .plain op.tag op

def bareExpr (k : BareExpr) : Variant ExprForm := .plain k.kind (.bare k)

def exprVariants : List (Variant ExprForm) :=
  [ ⟨"BoolOp", [required "op" .boolOperator, required "values" (.list .expr)],
      fun (op, values, ()) => .boolOp op values⟩,
    bareExpr .namedExpr,
    ⟨"BinOp", [required "left" .expr, required "op" .binaryOperator, required "right" .expr],
      fun (left, op, right, ()) => .binOp left op right⟩,
    ⟨"UnaryOp", [required "op" .unaryOperator, required "operand" .expr],
      fun (op, operand, ()) => .unaryOp op operand⟩,
    bareExpr .lambda,
    bareExpr .ifExp,
    bareExpr .dict,
    bareExpr .set,
    bareExpr .listComp,
    bareExpr .setComp,
    bareExpr .dictComp,
    bareExpr .generatorExp,
    bareExpr .await,
    bareExpr .yield,
    bareExpr .yieldFrom,
    ⟨"Compare", [required "left" .expr, required "ops" (.list .cmpOperator),
        required "comparators" (.list .expr)],
      fun (left, ops, comparators, ()) => .compare left ops comparators⟩,
    ⟨"Call", [required "func" .expr, .list "args" .expr, .list "keywords" .keyword],
      fun (func, args, keywords, ()) => .call func args keywords⟩,
    bareExpr .formattedValue,
    bareExpr .joinedStr,
    ⟨"Constant", [⟨"value", .literal, some Literal.none⟩, .optional "kind" .text],
      fun (value, kind, ()) => .constant value kind⟩,
    ⟨"Attribute", [required "value" .expr, required "attr" .text],
      fun (value, attr, ()) => .attr value attr⟩,
    ⟨"Subscript", [required "value" .expr, required "slice" .expr],
      fun (value, slice, ()) => .subscript value slice⟩,
    ⟨"Starred", [required "value" .expr], fun (value, ()) => .starred value⟩,
    ⟨"Name", [required "id" .text], fun (id, ()) => .name id⟩,
    ⟨"List", [.list "elts" .expr], fun (elts, ()) => .list elts⟩,
    ⟨"Tuple", [.list "elts" .expr], fun (elts, ()) => .tuple elts⟩,
    bareExpr .slice,
    ⟨"Index", [required "value" .expr], fun (value, ()) => .index value⟩ ]

def bareStmt (k : BareStmt) : Variant StmtForm := .plain k.kind (.bare k)

def stmtVariants : List (Variant StmtForm) :=
  [ ⟨"FunctionDef", [required "name" .text, required "args" .params, .list "body" .stmt,
        .list "decorator_list" .expr, .optional "returns" .expr],
      fun (name, params, body, decorators, returns, ()) =>
        .functionDef name params body decorators returns⟩,
    bareStmt .asyncFunctionDef,
    ⟨"ClassDef", [required "name" .text, .list "bases" .expr, .list "keywords" .keyword,
        .list "body" .stmt, .list "decorator_list" .expr],
      fun (name, bases, keywords, body, decorators, ()) =>
        .classDef name bases keywords body decorators⟩,
    ⟨"Return", [.optional "value" .expr], fun (value, ()) => .ret value⟩,
    bareStmt .delete,
    ⟨"Assign", [required "targets" (.list .expr), required "value" .expr],
      fun (targets, value, ()) => .assign targets value⟩,
    bareStmt .typeAlias,
    ⟨"AugAssign", [required "target" .expr, required "op" .binaryOperator, required "value" .expr],
      fun (target, op, value, ()) => .augAssign target op value⟩,
    ⟨"AnnAssign", [required "target" .expr, required "annotation" .expr, .optional "value" .expr,
        ⟨"simple", .byte, some (0 : UInt8)⟩],
      fun (target, annot, value, simple, ()) => .annAssign target annot value simple⟩,
    ⟨"For", [required "target" .expr, required "iter" .expr, .list "body" .stmt,
        .list "orelse" .stmt],
      fun (target, iter, body, orelse, ()) => .forIn target iter body orelse⟩,
    bareStmt .asyncFor,
    ⟨"While", [required "test" .expr, .list "body" .stmt, .list "orelse" .stmt],
      fun (test, body, orelse, ()) => .whileDo test body orelse⟩,
    ⟨"If", [required "test" .expr, .list "body" .stmt, .list "orelse" .stmt],
      fun (test, body, orelse, ()) => .ifElse test body orelse⟩,
    bareStmt .withBlock,
    bareStmt .asyncWith,
    bareStmt .matchCases,
    bareStmt .raise,
    bareStmt .tryBlock,
    bareStmt .tryStar,
    bareStmt .assert,
    bareStmt .importModule,
    bareStmt .importFrom,
    bareStmt .globalNames,
    bareStmt .nonlocalNames,
    ⟨"Expr", [required "value" .expr], fun (value, ()) => .expr value⟩,
    .plain "Pass" .pass,
    .plain "Break" .breakLoop,
    .plain "Continue" .continueLoop ]

def unitVariants : List (Variant SourceUnit) :=
  [ ⟨"Module", [.list "body" .stmt], fun (body, ()) => .module body⟩,
    .plain "Interactive" .interactive,
    .plain "Expression" .expression,
    .plain "FunctionType" .functionType ]

/-- The positions that any statement or expression may carry. -/
def positionFields : List Field :=
  [.optional "lineno" .position, .optional "col_offset" .position,
    .optional "end_lineno" .position, .optional "end_col_offset" .position]

def spanOf : Record positionFields → Option Span
  | (line, column, endLine, endColumn, ()) => Span.ofPositions? line column endLine endColumn

def paramFields : List Field := [required "arg" .text, .optional "annotation" .expr]

def paramOf : Record paramFields → Param
  | (name, annot, ()) => ⟨name, annot⟩

def keywordFields : List Field := [.optional "arg" .text, required "value" .expr]

def keywordOf : Record keywordFields → Keyword
  | (arg, value, ()) => .mk arg value

def paramsFields : List Field :=
  [.list "posonlyargs" .param, .list "args" .param, .optional "vararg" .param,
    .list "kwonlyargs" .param, .list "kw_defaults" (.optional .expr), .optional "kwarg" .param,
    .list "defaults" .expr]

def paramsOf : Record paramsFields → Params
  | (posOnly, plain, variadic, keywordOnly, keywordDefaults, keywordVariadic, defaults, ()) =>
    ⟨posOnly, plain, variadic, keywordOnly, keywordDefaults, keywordVariadic, defaults⟩

end RegionIR.Schema
