/-!
# Release

The name and the version that a program reports and that stored configurations carry.
-/

namespace BitEnvelope.Release

def name : String := "bvsls"

def version : String := "0.1.0"

def banner : String := name ++ " v" ++ version

end BitEnvelope.Release
