namespace SmaliPrune

abbrev Platform := List (String × List String)

def Platform.parents? (p : Platform) (name : String) : Option (List String) := p.lookup name

def objectType : String := "Ljava/lang/Object;"

private def numberParents : List String := ["Ljava/lang/Number;","Ljava/lang/Comparable;"]

def Platform.standard : Platform := [
  (objectType,[]),
  ("Ljava/io/Serializable;",[]),
  ("Ljava/lang/Comparable;",[]),
  ("Ljava/lang/CharSequence;",[]),
  ("Ljava/lang/Appendable;",[]),
  ("Ljava/lang/Cloneable;",[]),
  ("Ljava/lang/Runnable;",[]),
  ("Ljava/lang/Iterable;",[]),
  ("Ljava/util/RandomAccess;",[]),
  ("Ljava/util/Map;",[]),
  ("Ljava/util/Collection;",["Ljava/lang/Iterable;"]),
  ("Ljava/util/List;",["Ljava/util/Collection;"]),
  ("Ljava/util/Set;",["Ljava/util/Collection;"]),
  ("Ljava/lang/String;",[objectType,"Ljava/io/Serializable;","Ljava/lang/Comparable;","Ljava/lang/CharSequence;"]),
  ("Ljava/lang/StringBuilder;",[objectType,"Ljava/io/Serializable;","Ljava/lang/CharSequence;","Ljava/lang/Appendable;"]),
  ("Ljava/lang/Class;",[objectType,"Ljava/io/Serializable;"]),
  ("Ljava/lang/Math;",[objectType]),
  ("Ljava/lang/Number;",[objectType,"Ljava/io/Serializable;"]),
  ("Ljava/lang/Boolean;",[objectType,"Ljava/io/Serializable;","Ljava/lang/Comparable;"]),
  ("Ljava/lang/Character;",[objectType,"Ljava/io/Serializable;","Ljava/lang/Comparable;"]),
  ("Ljava/lang/Byte;",numberParents),
  ("Ljava/lang/Short;",numberParents),
  ("Ljava/lang/Integer;",numberParents),
  ("Ljava/lang/Long;",numberParents),
  ("Ljava/lang/Float;",numberParents),
  ("Ljava/lang/Double;",numberParents),
  ("Ljava/lang/Void;",[objectType]),
  ("Ljava/lang/Throwable;",[objectType,"Ljava/io/Serializable;"]),
  ("Ljava/lang/Exception;",["Ljava/lang/Throwable;"]),
  ("Ljava/lang/Error;",["Ljava/lang/Throwable;"]),
  ("Ljava/lang/RuntimeException;",["Ljava/lang/Exception;"]),
  ("Ljava/lang/IllegalArgumentException;",["Ljava/lang/RuntimeException;"]),
  ("Ljava/lang/IllegalStateException;",["Ljava/lang/RuntimeException;"]),
  ("Ljava/lang/NullPointerException;",["Ljava/lang/RuntimeException;"]),
  ("Ljava/lang/ClassCastException;",["Ljava/lang/RuntimeException;"]),
  ("Ljava/lang/ArithmeticException;",["Ljava/lang/RuntimeException;"]),
  ("Ljava/io/IOException;",["Ljava/lang/Exception;"]),
  ("Ljava/util/AbstractCollection;",[objectType,"Ljava/util/Collection;"]),
  ("Ljava/util/AbstractList;",["Ljava/util/AbstractCollection;","Ljava/util/List;"]),
  ("Ljava/util/AbstractSet;",["Ljava/util/AbstractCollection;","Ljava/util/Set;"]),
  ("Ljava/util/AbstractMap;",[objectType,"Ljava/util/Map;"]),
  ("Ljava/util/ArrayList;",["Ljava/util/AbstractList;","Ljava/util/List;","Ljava/util/RandomAccess;",
    "Ljava/lang/Cloneable;","Ljava/io/Serializable;"]),
  ("Ljava/util/HashSet;",["Ljava/util/AbstractSet;","Ljava/util/Set;","Ljava/lang/Cloneable;",
    "Ljava/io/Serializable;"]),
  ("Ljava/util/HashMap;",["Ljava/util/AbstractMap;","Ljava/util/Map;","Ljava/lang/Cloneable;",
    "Ljava/io/Serializable;"])]

-- A platform together with the answers it gave before. A type it does not know is
-- remembered as well.
structure PlatformMemo where
  platform : Platform
  answers : List (String × Option (List String))

namespace PlatformMemo

def fresh (platform : Platform) : PlatformMemo := ⟨platform,[]⟩

def parents? (m : PlatformMemo) (name : String) : Option (List String) :=
  (m.answers.lookup name).getD (m.platform.parents? name)

def remember (m : PlatformMemo) (name : String) : PlatformMemo :=
  if (m.answers.lookup name).isSome then m else { m with answers := (name,m.platform.parents? name) :: m.answers }

def size (m : PlatformMemo) : Nat := m.answers.length

def Faithful (m : PlatformMemo) : Prop :=
  ∀ name answer, m.answers.lookup name = some answer → answer = m.platform.parents? name

end PlatformMemo
end SmaliPrune
