/-!
The names that the language and its compiled form give a meaning to.
-/

namespace StackML.Names

def print : String := "print"

def result : String := "Result"

def ok : String := "Ok"

def error : String := "Error"

def entry : String := "main"

def initializer : String := "<clinit>"

/-- Methods of nested functions start with this and end with a number. -/
def lambdaStem : String := "lambda$"

/-- Functions that build a constructed value start with this and end with the constructor. -/
def factoryStem : String := "make$"

def defaultModule : String := "Main"

end StackML.Names
